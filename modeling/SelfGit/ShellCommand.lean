import SelfGit.Foundation.Shell
import SelfGit.ShowDiff

namespace SelfGit
open Foundation
set_option autoImplicit true

/-- The shell that `popen` starts reads one command, with the path as its last word. -/
def SingleCommand (path : Path) : Prop :=
  ∀ expand, Shell.read expand (diffCommand path) =
    some [[str "diff", str "-u", str "-", path]]

def atName : Shell := ⟨.unquoted, [], [str "diff", str "-u", str "-"], none⟩

theorem diffCommand_eq (path : Path) : diffCommand path = str "diff -u - " ++ path.take 989 := by
  rw [diffCommand, List.take_append, List.take_of_length_le (by decide),
    show (str "diff -u - ").length = 10 by decide]

theorem read_diffCommand (expand : List Byte → List (List Byte)) (path : Path) :
    Shell.read expand (diffCommand path) =
      ((path.take 989).foldlM (Shell.step expand) atName).bind (Shell.finish expand) := by
  rw [Shell.read, diffCommand_eq, List.foldlM_append]
  rfl

/-- Bytes that stand for themselves, not starting a comment or the name of a user. -/
structure PlainName (path : Path) : Prop where
  plain : ∀ c ∈ path, shellClass c = .plain
  comment : path.head? ≠ some 35
  tilde : path.head? ≠ some 126

instance : Decidable (PlainName path) :=
  decidable_of_iff ((∀ c ∈ path, shellClass c = .plain) ∧ path.head? ≠ some 35 ∧
    path.head? ≠ some 126) ⟨fun ⟨h, h35, h126⟩ => ⟨h, h35, h126⟩, fun ⟨h, h35, h126⟩ => ⟨h, h35, h126⟩⟩

theorem step_first (hc : shellClass c = .plain) (h35 : c ≠ 35) (h126 : c ≠ 126)
    (expand : List Byte → List (List Byte)) :
    Shell.step expand atName c = some { atName with word := some ([c], false) } := by
  have hmode : atName.mode = .unquoted := rfl
  have hword : atName.word = none := rfl
  simp only [Shell.step, hmode, hc, h35, h126, false_and, if_false, decide_false, Shell.push, hword]

theorem PlainName.single (h : PlainName path) (hne : path ≠ []) (hlen : path.length ≤ 989) :
    SingleCommand path := by
  intro expand
  obtain ⟨c, rest, rfl⟩ := List.exists_cons_of_ne_nil hne
  obtain ⟨hc, hrest⟩ := List.forall_mem_cons.1 h.plain
  have hfirst := step_first hc (fun h35 => h.comment (by rw [h35]; rfl))
    (fun h126 => h.tilde (by rw [h126]; rfl)) expand
  rw [read_diffCommand, List.take_of_length_le hlen, List.foldlM_cons, hfirst,
    Option.bind_eq_bind, Option.bind_some, Shell.read_plain expand hrest rfl rfl]
  rfl

/-- If the whole path is the last word then all of its bytes have got there. -/
theorem SingleCommand.plainName (h : SingleCommand path) (hne : path ≠ []) :
    path.length ≤ 989 ∧ PlainName path := by
  have hread := h Shell.noFiles
  rw [read_diffCommand, Option.bind_eq_some_iff] at hread
  obtain ⟨σ, hfold, hfinish⟩ := hread
  have hweight := Shell.finish_weight hfinish
  have htotal : [[str "diff", str "-u", str "-", path]].flatten.flatten.length =
      7 + path.length := by
    simp only [List.flatten_cons, List.flatten_nil, List.append_nil, List.length_append,
      show (str "diff").length = 4 by decide, show (str "-u").length = 2 by decide,
      show (str "-").length = 1 by decide]
    omega
  have hstart : atName.load = 7 := by decide
  have hload := Shell.weight_le_load σ
  have hle := Shell.read_load hfold
  rw [List.length_take] at hle
  have hlen : path.length ≤ 989 := by omega
  refine ⟨hlen, ?_⟩
  rw [List.take_of_length_le hlen] at hfold
  obtain ⟨c, rest, rfl⟩ := List.exists_cons_of_ne_nil hne
  rw [List.length_cons] at htotal
  rw [List.foldlM_cons, Option.bind_eq_bind, Option.bind_eq_some_iff] at hfold
  obtain ⟨σ₁, hstep, hfold⟩ := hfold
  have hrest := Shell.read_load hfold
  have hquiet : ¬ atName.Active c := by
    intro hactive
    have hquiet := Shell.step_active hstep rfl hactive
    omega
  rw [Shell.Active, not_or, not_not] at hquiet
  obtain ⟨hplain, hhead⟩ := hquiet
  have h35 : c ≠ 35 := fun h35 => hhead ⟨rfl, .inl h35⟩
  have h126 : c ≠ 126 := fun h126 => hhead ⟨rfl, .inr h126⟩
  rw [step_first hplain h35 h126, Option.some.injEq] at hstep
  subst hstep
  have hone : Shell.load { atName with word := some ([c], false) } = 8 := by
    simp only [Shell.load, Shell.weight]
    rfl
  refine ⟨List.forall_mem_cons.2 ⟨hplain, Shell.plain_of_read hfold rfl (by simp) (by omega)⟩,
    ?_, ?_⟩
  · intro hc
    exact h35 (Option.some.inj hc)
  · intro hc
    exact h126 (Option.some.inj hc)

/-- The command is what it is meant to be if and only if the name fits behind `diff -u - ` and has
nothing in it that the shell would not leave alone. -/
theorem no_injection (path : CStr) (hv : verifyPath path = true) :
    SingleCommand path.1 ↔ path.1.length ≤ 989 ∧ PlainName path.1 := by
  have hne : path.1 ≠ [] := by
    intro hnil
    rw [verifyPath, hnil] at hv
    cases hv
  constructor
  · intro h
    exact h.plainName hne
  · rintro ⟨hfits, hplain⟩
    exact hplain.single hne hfits

theorem no_injection_plain : SingleCommand (str "lib/a-b.c") :=
  (no_injection (cstr "lib/a-b.c") (by decide)).2
    ⟨by decide, by decide +kernel, by decide, by decide⟩

/-- The name `a;b` makes two commands. -/
theorem injected : ¬ ∀ path : CStr, verifyPath path = true → path.1.length < pathMax →
    SingleCommand path.1 := by
  intro hall
  have hread := hall (cstr "a;b") (by decide) (by decide) Shell.noFiles
  have htwo : Shell.read Shell.noFiles (diffCommand (cstr "a;b").1) =
      some [[str "diff", str "-u", str "-", str "a"], [str "b"]] := by
    decide
  rw [htwo] at hread
  exact absurd hread (by decide)

end SelfGit
