import SelfGit.Foundation.Bytes

namespace Foundation
set_option autoImplicit true

/-- What an unquoted byte is to the shell. -/
inductive ShellClass where
  | blank
  | stop
  | single
  | double
  | backslash
  | special
  | pattern
  | plain
  deriving DecidableEq

def shellClass (c : Byte) : ShellClass :=
  if c = 32 ∨ c = 9 then .blank
  else if c = 59 ∨ c = 38 ∨ c = 124 ∨ c = 10 then .stop
  else if c = 39 then .single
  else if c = 34 then .double
  else if c = 92 then .backslash
  else if c = 36 ∨ c = 96 ∨ c = 60 ∨ c = 62 ∨ c = 40 ∨ c = 41 then .special
  else if c = 42 ∨ c = 63 ∨ c = 91 then .pattern
  else .plain

inductive ShellMode where
  | unquoted
  | escaped
  | single
  | double
  | doubleEscaped
  | comment
  deriving DecidableEq

/-- A shell in the middle of a command line. -/
structure Shell where
  mode : ShellMode
  cmds : List (List (List Byte))
  words : List (List Byte)
  word : Option (List Byte × Bool)
  deriving DecidableEq

namespace Shell

def start : Shell := ⟨.unquoted, [], [], none⟩

section Reading
variable (expand : List Byte → List (List Byte))

/-- What a word with a pattern or a tilde becomes depends on the files and the users there are. -/
def endWord (σ : Shell) : Shell :=
  match σ.word with
  | none => σ
  | some (w, false) => { σ with words := σ.words ++ [w], word := none }
  | some (w, true) => { σ with words := σ.words ++ expand w, word := none }

def endCommand (σ : Shell) : Shell :=
  let σ := σ.endWord expand
  if σ.words = [] then σ else { σ with cmds := σ.cmds ++ [σ.words], words := [] }

def begin (σ : Shell) : Shell :=
  match σ.word with
  | none => { σ with word := some ([], false) }
  | some _ => σ

def push (σ : Shell) (c : Byte) (pattern : Bool) : Shell :=
  match σ.word with
  | none => { σ with word := some ([c], pattern) }
  | some (w, p) => { σ with word := some (w ++ [c], p || pattern) }

/-- One byte. An expansion, a redirection and a subshell are beyond what is read here. -/
def step (σ : Shell) (c : Byte) : Option Shell :=
  match σ.mode with
  | .unquoted =>
    match shellClass c with
    | .blank => some (σ.endWord expand)
    | .stop => some (σ.endCommand expand)
    | .single => some { σ.begin with mode := .single }
    | .double => some { σ.begin with mode := .double }
    | .backslash => some { σ with mode := .escaped }
    | .special => none
    | .pattern => some (σ.push c true)
    | .plain =>
      if c = 35 ∧ σ.word = none then some { σ with mode := .comment }
      else some (σ.push c (decide (c = 126 ∧ σ.word = none)))
  | .escaped =>
    if c = 10 then some { σ with mode := .unquoted }
    else some { σ.push c false with mode := .unquoted }
  | .single => if c = 39 then some { σ with mode := .unquoted } else some (σ.push c false)
  | .double =>
    if c = 34 then some { σ with mode := .unquoted }
    else if c = 36 ∨ c = 96 then none
    else if c = 92 then some { σ with mode := .doubleEscaped }
    else some (σ.push c false)
  | .doubleEscaped =>
    if c = 10 then some { σ with mode := .double }
    else if c = 36 ∨ c = 96 ∨ c = 34 ∨ c = 92 then some { σ.push c false with mode := .double }
    else some { (σ.push 92 false).push c false with mode := .double }
  | .comment =>
    if c = 10 then some { σ.endCommand expand with mode := .unquoted } else some σ

def finish (σ : Shell) : Option (List (List (List Byte))) :=
  if σ.mode = .unquoted ∨ σ.mode = .comment then some (σ.endCommand expand).cmds else none

def read (s : List Byte) : Option (List (List (List Byte))) :=
  (s.foldlM (step expand) start).bind (finish expand)

theorem read_plain {σ : Shell} {s w : List Byte} (hs : ∀ c ∈ s, shellClass c = .plain)
    (hm : σ.mode = .unquoted) (hw : σ.word = some (w, false)) :
    s.foldlM (step expand) σ = some { σ with word := some (w ++ s, false) } := by
  induction s generalizing σ w with
  | nil =>
    rw [List.append_nil, ← hw]
    rfl
  | cons c s ih =>
    obtain ⟨hc, hs⟩ := List.forall_mem_cons.1 hs
    have hstep : step expand σ c = some { σ with word := some (w ++ [c], false) } := by
      simp [step, hm, hc, push, hw]
    have hrest : s.foldlM (step expand) { σ with word := some (w ++ [c], false) } =
        some { σ with word := some (w ++ [c] ++ s, false) } := ih hs hm rfl
    rw [List.append_assoc, List.singleton_append] at hrest
    rw [List.foldlM_cons, hstep, Option.bind_eq_bind, Option.bind_some, hrest]

end Reading

def weight (σ : Shell) : Nat :=
  σ.cmds.flatten.flatten.length + σ.words.flatten.length +
    match σ.word with
    | some (w, false) => w.length
    | _ => 0

def noFiles (_ : List Byte) : List (List Byte) := []

theorem weight_endWord (σ : Shell) : (σ.endWord noFiles).weight = σ.weight := by
  obtain ⟨mode, cmds, words, word⟩ := σ
  rcases word with - | ⟨w, - | -⟩
  · rfl
  · simp only [endWord, weight, List.flatten_append, List.length_append, List.flatten_cons,
      List.flatten_nil, List.append_nil]
    omega
  · simp only [endWord, weight, noFiles, List.append_nil]

theorem weight_endCommand (σ : Shell) : (σ.endCommand noFiles).weight = σ.weight := by
  rw [endCommand, ← weight_endWord σ]
  split
  · rfl
  · simp only [weight, List.flatten_append, List.length_append, List.flatten_cons,
      List.flatten_nil, List.append_nil, List.length_nil]
    omega

theorem weight_begin (σ : Shell) : σ.begin.weight = σ.weight := by
  obtain ⟨mode, cmds, words, word⟩ := σ
  cases word with
  | none => rfl
  | some p => rfl

theorem weight_push (σ : Shell) (c : Byte) : (σ.push c false).weight ≤ σ.weight + 1 := by
  obtain ⟨mode, cmds, words, word⟩ := σ
  rcases word with - | ⟨w, - | -⟩
  · simp [push, weight]
  · simp only [push, weight, Bool.or_false, List.length_append, List.length_singleton]
    omega
  · simp [push, weight]

theorem weight_pattern (σ : Shell) (c : Byte) : (σ.push c true).weight ≤ σ.weight := by
  obtain ⟨mode, cmds, words, word⟩ := σ
  rcases word with - | ⟨w, - | -⟩
  · simp [push, weight]
  · simp [push, weight]
  · simp [push, weight]

def load (σ : Shell) : Nat := σ.weight + if σ.mode = .doubleEscaped then 1 else 0

theorem weight_le_load (σ : Shell) : σ.weight ≤ σ.load := Nat.le_add_right _ _

section Counting
variable {σ σ' : Shell} {c : Byte}

theorem load_eq (h : σ.mode ≠ .doubleEscaped) : σ.load = σ.weight := by
  rw [load, if_neg h, Nat.add_zero]

theorem load_mode {m : ShellMode} (h : m ≠ .doubleEscaped) :
    { σ with mode := m }.load = σ.weight := load_eq h

@[simp] theorem mode_endWord (expand : List Byte → List (List Byte)) :
    (σ.endWord expand).mode = σ.mode := by
  rw [endWord]
  split <;> rfl

@[simp] theorem mode_endCommand (expand : List Byte → List (List Byte)) :
    (σ.endCommand expand).mode = σ.mode := by
  rw [endCommand]
  split
  · exact mode_endWord expand
  · exact mode_endWord expand

@[simp] theorem mode_push (p : Bool) : (σ.push c p).mode = σ.mode := by
  rw [push]
  split <;> rfl

def Active (σ : Shell) (c : Byte) : Prop :=
  shellClass c ≠ .plain ∨ σ.word = none ∧ (c = 35 ∨ c = 126)

theorem step_active (h : step noFiles σ c = some σ') (hm : σ.mode = .unquoted)
    (hc : σ.Active c) : σ'.load ≤ σ.load := by
  have hload : σ.load = σ.weight := load_eq (by rw [hm]; decide)
  simp only [step, hm] at h
  split at h
  · cases h
    rw [load_eq (by rw [mode_endWord, hm]; decide), weight_endWord, hload]
  · cases h
    rw [load_eq (by rw [mode_endCommand, hm]; decide), weight_endCommand, hload]
  · cases h
    rw [load_mode (by decide), weight_begin, hload]
  · cases h
    rw [load_mode (by decide), weight_begin, hload]
  · cases h
    rw [load_mode (by decide), hload]
  · cases h
  · cases h
    rw [load_eq (by rw [mode_push, hm]; decide), hload]
    exact weight_pattern σ c
  · rename_i hplain
    rcases hc with hc | ⟨hw, hc⟩
    · exact absurd hplain hc
    · split at h
      · cases h
        rw [load_mode (by decide), hload]
      · rename_i hhash
        have htilde : c = 126 := hc.resolve_left fun h35 => hhash ⟨h35, hw⟩
        rw [decide_eq_true ⟨htilde, hw⟩] at h
        cases h
        rw [load_eq (by rw [mode_push, hm]; decide), hload]
        exact weight_pattern σ c

theorem step_unquoted (h : step noFiles σ c = some σ') (hm : σ.mode = .unquoted) :
    σ'.load ≤ σ.load + 1 := by
  by_cases hc : σ.Active c
  · exact Nat.le_succ_of_le (step_active h hm hc)
  · rw [Active, not_or, not_not] at hc
    have hnot : ¬ (c = 35 ∧ σ.word = none) := fun h35 => hc.2 ⟨h35.2, .inl h35.1⟩
    have hnot' : ¬ (c = 126 ∧ σ.word = none) := fun h126 => hc.2 ⟨h126.2, .inr h126.1⟩
    simp only [step, hm, hc.1, if_neg hnot, decide_eq_false hnot'] at h
    cases h
    rw [load_eq (by rw [mode_push, hm]; decide), load_eq (by rw [hm]; decide)]
    exact weight_push σ c

theorem step_load (h : step noFiles σ c = some σ') : σ'.load ≤ σ.load + 1 := by
  cases hm : σ.mode with
  | unquoted => exact step_unquoted h hm
  | escaped =>
    have hload : σ.load = σ.weight := load_eq (by rw [hm]; decide)
    simp only [step, hm] at h
    split at h
    · cases h
      rw [load_mode (by decide), hload]
      omega
    · cases h
      rw [load_mode (by decide), hload]
      exact weight_push σ c
  | single =>
    have hload : σ.load = σ.weight := load_eq (by rw [hm]; decide)
    simp only [step, hm] at h
    split at h
    · cases h
      rw [load_mode (by decide), hload]
      omega
    · cases h
      rw [load_eq (by rw [mode_push, hm]; decide), hload]
      exact weight_push σ c
  | double =>
    have hload : σ.load = σ.weight := load_eq (by rw [hm]; decide)
    simp only [step, hm] at h
    split at h
    · cases h
      rw [load_mode (by decide), hload]
      omega
    · split at h
      · cases h
      · split at h
        · cases h
          rw [load, if_pos rfl, hload]
          exact Nat.le_refl _
        · cases h
          rw [load_eq (by rw [mode_push, hm]; decide), hload]
          exact weight_push σ c
  | doubleEscaped =>
    have hload : σ.load = σ.weight + 1 := by rw [load, if_pos hm]
    have hpush := weight_push σ c
    have hfirst := weight_push σ 92
    have hboth := weight_push (σ.push 92 false) c
    simp only [step, hm] at h
    split at h
    · cases h
      rw [load_mode (by decide)]
      omega
    · split at h
      · cases h
        rw [load_mode (by decide)]
        omega
      · cases h
        rw [load_mode (by decide)]
        omega
  | comment =>
    have hload : σ.load = σ.weight := load_eq (by rw [hm]; decide)
    simp only [step, hm] at h
    split at h
    · cases h
      rw [load_mode (by decide), weight_endCommand, hload]
      omega
    · cases h
      omega

end Counting

theorem read_load {s : List Byte} {σ σ' : Shell} (h : s.foldlM (step noFiles) σ = some σ') :
    σ'.load ≤ σ.load + s.length := by
  induction s generalizing σ with
  | nil =>
    cases h
    exact Nat.le_refl _
  | cons c s ih =>
    rw [List.foldlM_cons, Option.bind_eq_bind, Option.bind_eq_some_iff] at h
    obtain ⟨σ₁, hstep, h⟩ := h
    have hle := step_load hstep
    have hrest := ih h
    rw [List.length_cons]
    omega

theorem finish_weight {σ : Shell} {lines : List (List (List Byte))}
    (h : finish noFiles σ = some lines) : lines.flatten.flatten.length ≤ σ.weight := by
  rw [finish] at h
  split at h
  · cases h
    rw [← weight_endCommand σ]
    simp only [weight]
    omega
  · cases h

theorem plain_of_read {s : List Byte} {σ σ' : Shell} (h : s.foldlM (step noFiles) σ = some σ')
    (hm : σ.mode = .unquoted) (hw : σ.word ≠ none) (hfull : σ.load + s.length ≤ σ'.load) :
    ∀ c ∈ s, shellClass c = .plain := by
  induction s generalizing σ with
  | nil =>
    intro c hc
    cases hc
  | cons c s ih =>
    rw [List.foldlM_cons, Option.bind_eq_bind, Option.bind_eq_some_iff] at h
    obtain ⟨σ₁, hstep, h⟩ := h
    have hrest := read_load h
    rw [List.length_cons] at hfull
    have hplain : shellClass c = .plain := by
      by_contra hc
      have hle := step_active hstep hm (.inl hc)
      omega
    have hnext : step noFiles σ c = some (σ.push c false) := by
      have hnot : ¬ (c = 35 ∧ σ.word = none) := fun h35 => hw h35.2
      have hnot' : ¬ (c = 126 ∧ σ.word = none) := fun h126 => hw h126.2
      simp only [step, hm, hplain, if_neg hnot, decide_eq_false hnot']
    rw [hnext, Option.some.injEq] at hstep
    subst hstep
    refine List.forall_mem_cons.2 ⟨hplain, ih h (by rw [mode_push, hm]) ?_ ?_⟩
    · rw [push]
      split
      · simp
      · simp
    · have hle := step_load hnext
      omega

end Shell
end Foundation
