import SelfGit.Processes
import SelfGit.StoredZlib

namespace SelfGit
open Foundation
set_option autoImplicit true

section Processes
variable {Pid : Type}

/-- The index is replaced as a whole and by one process at a time. -/
structure Atomic [DecidableEq Pid] (lib : Pid → Lib) (argv : Pid → List CStr) (first : Option (List Byte))
    (c : Machine Pid) : Prop where
  index : c.shared.read indexPath = first ∨
    ∃ i b, c.shared.read indexPath = some b ∧ Installed lib c i b
  holder : ∀ i j, (books lib argv c i).lock ≠ none → (books lib argv c j).lock ≠ none → i = j
  renames : ∀ i src dst k, c.prog i = .call (.rename src dst) k →
    src = lockPath ∧ dst = indexPath ∧ (books lib argv c i).lock ≠ none ∧
      (books lib argv c i).lock = c.shared.dir lockPath
  unlinks : ∀ i p k, c.prog i = .call (.unlink p) k →
    p = lockPath ∧ (books lib argv c i).lock ≠ none ∧
      (books lib argv c i).lock = c.shared.dir lockPath
  changes : ∀ c', Config.Step answered c c' →
    c'.shared.read indexPath = c.shared.read indexPath ∨
      ∃ i b, c'.shared.read indexPath = some b ∧ Installed lib c' i b ∧
        ∀ j, j ≠ i → c'.prog j = c.prog j
  others : ∀ i r m, c.prog i = .ret (r, m) → r ≠ some 0 →
    (books lib argv c i).installed = none ∧ (books lib argv c i).lock = none

variable {lib : Pid → Lib} {argv : Pid → List CStr} {fs : FS} {first : Option (List Byte)}
  {c : Machine Pid} {ok : (o : Op) → o.Res → Prop}
  [DecidableEq Pid]

theorem InOrder.changes (h : InOrder anyAnswer lib argv first c)
    (hs : Config.Step answered c c') :
    c'.shared.read indexPath = c.shared.read indexPath ∨
      ∃ i b, c'.shared.read indexPath = some b ∧ Installed lib c' i b ∧
        ∀ j, j ≠ i → c'.prog j = c.prog j := by
  have h' : InOrder anyAnswer lib argv first c' :=
    Config.Sound.step (fun _ _ _ _ _ hj ha hs => hj.step ha hs trivial onLock_any) h hs
  cases hs with
  | die i => exact .inl rfl
  | @act i o k r fs' hd hp hr =>
    have hw := h.each i
    rw [hp, Prog.wp_call] at hw
    have hm := Move.of_step hw.1 trivial onLock_any hr
    refine (hm.index h.joint.good (h.joint.held i)).imp (·.1.read) fun hin => ?_
    obtain ⟨b, hb, hread⟩ := hin.installed
    refine ⟨i, b, hread, h'.installed ?_, fun j hj => Function.update_of_ne hj _ _⟩
    have hv := congrFun (Config.views_act (terms anyAnswer)
      (fun i => View.init (lib i) ((argv i).drop 1)) c (i := i) (o := o) (r := r) (p := k r)
      (w := fs')) i
    rw [Function.update_self] at hv
    exact (congrArg View.installed hv).trans hb

theorem InOrder.atomic (h : InOrder anyAnswer lib argv first c) : Atomic lib argv first c where
  index := by
    refine h.joint.index.imp_right ?_
    rintro ⟨i, b, hi, hread⟩
    exact ⟨i, b, hread, h.installed hi⟩
  holder := h.joint.lone
  renames i src dst k hp := by
    have hw := h.each i
    rw [hp, Prog.wp_call] at hw
    obtain ⟨-, hsrc, hdst, hl, -⟩ := hw.1
    exact ⟨hsrc, hdst, hl, h.lock_dir hl⟩
  unlinks i p k hp := by
    have hw := h.each i
    rw [hp, Prog.wp_call] at hw
    obtain ⟨-, hpath, hl⟩ := hw.1
    exact ⟨hpath, hl, h.lock_dir hl⟩
  changes _ hs := h.changes hs
  others i r m hp hr := by
    have hw := h.each i
    rw [hp, Prog.wp_ret] at hw
    exact hw.2 hr

/-- For any number of processes, in every state that any interleaving of their operations and
deaths leads to. -/
theorem index_replaced_atomically (hg : fs.Good)
    (hr : Config.Reaches answered (updating lib argv fs) c) :
    Atomic lib argv (fs.read indexPath) c :=
  (InOrder.reaches hg hr).atomic

end Processes

/-- Two processes, of which the first adds its file and the second has not begun. -/
theorem index_replaced_by_first : ∃ c : Machine Bool,
    Config.Reaches answered (updating (fun _ => storedLib)
      (fun i => [cstr "git", if i then cstr "b" else cstr "a"]) FS.empty) c ∧
    (c.shared.read indexPath).isSome = true ∧
    Atomic (fun _ => storedLib) (fun i => [cstr "git", if i then cstr "b" else cstr "a"]) none c := by
  obtain ⟨c, hc, hi⟩ : ∃ c, Config.drive turn (FS.serve [(str "a", str "x"), (str "b", str "y")])
      (List.replicate 12 false) (updating (fun _ => storedLib)
        (fun i => [cstr "git", if i then cstr "b" else cstr "a"]) FS.empty) = some c ∧
      (c.shared.read indexPath).isSome = true := by
    rw [← Option.map_eq_some_iff]
    decide +kernel
  have hr : Config.Reaches answered _ c :=
    Config.drive_reaches (fun _ _ _ _ h => h) (fun _ => rfl) hc
  exact ⟨c, hr, hi, index_replaced_atomically FS.empty_good hr⟩

end SelfGit
