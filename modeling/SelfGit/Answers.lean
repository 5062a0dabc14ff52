import SelfGit.Foundation.Exec
import SelfGit.ObjectNames

namespace SelfGit
open Foundation
set_option autoImplicit true

/-- The answers the repository can give that satisfy `ok`. -/
def Answers (ok : (o : Op) → o.Res → Prop) (fs : FS) (o : Op) (r : o.Res) (fs' : FS) : Prop :=
  fs.step o r = some fs' ∧ ok o r

/-- The complete runs of a command over the repository. -/
abbrev RunsTo (ok : (o : Op) → o.Res → Prop) (fs : FS) (p : Proc α) (x : Except Stop α)
    (fs' : FS) : Prop :=
  Prog.Runs (Answers ok) fs p x fs'

section Calls
variable {ok : (o : Op) → o.Res → Prop} {fs fs' : FS} {α : Type} {x : Except Stop α}

theorem runs_ask {o : Op} (f : o.Res → Proc α) :
    RunsTo ok fs (Prog.ask o >>= f) x fs' ↔
      ∃ r fs₁, (fs.step o r = some fs₁ ∧ ok o r) ∧ RunsTo ok fs₁ (f r) x fs' :=
  Prog.runs_call

theorem runs_seq {x : Except Stop β} (p : Proc α) (f : α → Proc β) :
    RunsTo ok fs (p >>= f) x fs' ↔
      (∃ a fs₁, RunsTo ok fs p (.ok a) fs₁ ∧ RunsTo ok fs₁ (f a) x fs') ∨
        ∃ e, x = .error e ∧ RunsTo ok fs p (.error e) fs' :=
  Prog.runs_bind p f

theorem runs_look {o : Op} (hsame : ∀ r fs₁, fs.step o r = some fs₁ → fs₁ = fs)
    (f : o.Res → Proc α) : RunsTo ok fs (Prog.ask o >>= f) x fs' ↔
      ∃ r, (fs.step o r = some fs ∧ ok o r) ∧ RunsTo ok fs (f r) x fs' := by
  rw [runs_ask]
  constructor
  · rintro ⟨r, fs₁, ⟨hs, hok⟩, h⟩
    obtain rfl := hsame r fs₁ hs
    exact ⟨r, ⟨hs, hok⟩, h⟩
  · rintro ⟨r, hr, h⟩
    exact ⟨r, fs, hr, h⟩

theorem FS.opened_same (h : fs.opened p r = some fs') : fs' = fs := by
  rw [FS.opened.eq_def] at h
  grind

theorem FS.statted_same (h : fs.statted fd r = some fs') : fs' = fs := by
  rw [FS.statted.eq_def] at h
  grind

theorem FS.mapped_same (h : fs.mapped fd len r = some fs') : fs' = fs := by
  rw [FS.mapped.eq_def] at h
  grind

theorem FS.opened_ok (hd : fs.dir p = some i) (h : fs.opened p (.ok fd) = some fs') :
    p.length < pathMax ∧ fd = .repo i := by
  rw [FS.opened.eq_def] at h
  split at h
  · simp at h
  · rename_i hshort
    simp only [hd] at h
    split at h
    · rename_i hfd
      exact ⟨Nat.lt_of_not_le hshort, hfd⟩
    · cases h

theorem FS.statted_ok (h : fs.statted (.repo i) (some st) = some fs') :
    st.stSize.toNat = (fs.data i).length := by
  simp only [FS.statted] at h
  split at h
  · rename_i hsize
    exact hsize
  · cases h

theorem FS.mapped_ok (h : fs.mapped (.repo i) len (some m) = some fs') :
    m = (fs.data i).take len ∧ m.length = len ∧ 0 < len := by
  simp only [FS.mapped] at h
  split at h
  · rename_i hm
    exact hm
  · cases h

theorem runs_accessDir (f : Bool → Proc α) : RunsTo ok fs (accessDir p >>= f) x fs' ↔
    ∃ r : Bool, ok (.accessDir p) r ∧ RunsTo ok fs (f r) x fs' := by
  refine (runs_look (o := Op.accessDir p) (fun _ _ h => (Option.some.inj h).symm) f).trans ?_
  simp only [FS.step, true_and]
  rfl

theorem runs_openRead (f : Except Errno Fd → Proc α) : RunsTo ok fs (openRead p >>= f) x fs' ↔
    ∃ r : Except Errno Fd, (fs.opened p r = some fs ∧ ok (.openRead p) r) ∧
      RunsTo ok fs (f r) x fs' :=
  runs_look (o := Op.openRead p) (fun _ _ h => FS.opened_same h) f

theorem runs_fstat (f : Option Stat → Proc α) : RunsTo ok fs (fstat fd >>= f) x fs' ↔
    ∃ r : Option Stat, (fs.statted fd r = some fs ∧ ok (.fstat fd) r) ∧
      RunsTo ok fs (f r) x fs' :=
  runs_look (o := Op.fstat fd) (fun _ _ h => FS.statted_same h) f

theorem runs_mmap (f : Option (List Byte) → Proc α) : RunsTo ok fs (mmap fd len >>= f) x fs' ↔
    ∃ r : Option (List Byte), (fs.mapped fd len r = some fs ∧ ok (.mmap fd len) r) ∧
      RunsTo ok fs (f r) x fs' :=
  runs_look (o := Op.mmap fd len) (fun _ _ h => FS.mapped_same h) f

theorem runs_write (f : Int → Proc α) : RunsTo ok fs (write fd buf >>= f) x fs' ↔
    ∃ (r : Int) (fs₁ : FS), (fs.written fd buf r = some fs₁ ∧ ok (.write fd buf) r) ∧
      RunsTo ok fs₁ (f r) x fs' :=
  runs_ask (o := Op.write fd buf) f

theorem runs_openExcl (f : Except Errno Fd → Proc α) : RunsTo ok fs (openExcl p >>= f) x fs' ↔
    ∃ (r : Except Errno Fd) (fs₁ : FS), (fs.created p r = some fs₁ ∧ ok (.openExcl p) r) ∧
      RunsTo ok fs₁ (f r) x fs' :=
  runs_ask (o := Op.openExcl p) f

theorem FS.step_malloc (r : Bool) :
    fs.step (.malloc n) r = some fs' ↔ (r = true → n < 2 ^ 63) ∧ fs' = fs := by
  rw [FS.step]
  cases r with
  | false => simp [eq_comm]
  | true => by_cases hn : 2 ^ 63 ≤ n <;> simp [eq_comm]

theorem FS.step_memory (m : List Byte) :
    fs.step (.memory n) m = some fs' ↔ m.length = n ∧ fs' = fs := by
  rw [FS.step]
  by_cases hn : m.length = n <;> simp [hn, eq_comm]

theorem FS.step_access (r : Bool) :
    fs.step (.access p) r = some fs' ↔ (r = true → fs.dir p ≠ none) ∧ fs' = fs := by
  rw [FS.step]
  cases r with
  | false => simp [eq_comm]
  | true => cases hd : fs.dir p <;> simp [eq_comm]

theorem runs_malloc (f : Bool → Proc α) : RunsTo ok fs (malloc n >>= f) x fs' ↔
    ∃ r : Bool, ((r = true → n < 2 ^ 63) ∧ ok (.malloc n) r) ∧ RunsTo ok fs (f r) x fs' := by
  refine (runs_look (o := Op.malloc n) (fun r _ h => ((FS.step_malloc r).1 h).2) f).trans ?_
  exact exists_congr fun r => by simp [FS.step_malloc r]

theorem runs_memory (f : List Byte → Proc α) : RunsTo ok fs (memory n >>= f) x fs' ↔
    ∃ m : List Byte, (m.length = n ∧ ok (.memory n) m) ∧ RunsTo ok fs (f m) x fs' := by
  refine (runs_look (o := Op.memory n) (fun m _ h => ((FS.step_memory m).1 h).2) f).trans ?_
  exact exists_congr fun m => by simp [FS.step_memory m]

theorem runs_access (f : Bool → Proc α) : RunsTo ok fs (access p >>= f) x fs' ↔
    ∃ r : Bool, ((r = true → fs.dir p ≠ none) ∧ ok (.access p) r) ∧
      RunsTo ok fs (f r) x fs' := by
  refine (runs_look (o := Op.access p) (fun r _ h => ((FS.step_access r).1 h).2) f).trans ?_
  exact exists_congr fun r => by simp [FS.step_access r]

theorem runs_defined (a : Option β) (f : β → Proc α) : RunsTo ok fs (defined a >>= f) x fs' ↔
    (∃ b, a = some b ∧ RunsTo ok fs (f b) x fs') ∨
      (a = none ∧ x = .error .fault ∧ fs' = fs) :=
  Prog.runs_ofOption_bind a .fault f

end Calls

/-- Files can be opened, looked at and mapped, and there is memory to be had. -/
def Granted : (o : Op) → o.Res → Prop
  | .accessDir _, (r : Bool) => r = true
  | .openRead _, (r : Except Errno Fd) => ∃ fd, r = .ok fd
  | .fstat _, (r : Option Stat) => ∃ st, r = some st
  | .mmap _ _, (r : Option (List Byte)) => ∃ m, r = some m
  | .malloc _, (r : Bool) => r = true
  | _, _ => True

section Reading
variable {fs : FS} {i : Nat}

theorem granted_accessDir {r : Bool} : Granted (.accessDir p) r ↔ r = true := Iff.rfl

theorem granted_openRead (hd : fs.dir p = some i) (hp : p.length < pathMax) :
    fs.opened p r = some fs ∧ Granted (.openRead p) r ↔ r = .ok (.repo i) := by
  have hshort : ¬ pathMax ≤ p.length := by omega
  constructor
  · rintro ⟨ho, fd, rfl⟩
    simp only [FS.opened, if_neg hshort, hd] at ho
    split at ho
    · rename_i hfd
      rw [hfd]
    · cases ho
  · rintro rfl
    refine ⟨?_, _, rfl⟩
    simp only [FS.opened, if_neg hshort, hd, ↓reduceIte]

theorem granted_fstat :
    fs.statted (.repo i) r = some fs ∧ Granted (.fstat (.repo i)) r ↔
      ∃ st, r = some st ∧ st.stSize.toNat = (fs.data i).length := by
  constructor
  · rintro ⟨hs, st, rfl⟩
    simp only [FS.statted] at hs
    split at hs
    · rename_i hsz
      exact ⟨st, rfl, hsz⟩
    · cases hs
  · rintro ⟨st, rfl, hsz⟩
    refine ⟨?_, st, rfl⟩
    simp only [FS.statted, if_pos hsz]

theorem granted_mmap :
    fs.mapped (.repo i) len r = some fs ∧ Granted (.mmap (.repo i) len) r ↔
      r = some ((fs.data i).take len) ∧ len ≤ (fs.data i).length ∧ 0 < len := by
  constructor
  · rintro ⟨hs, m, rfl⟩
    simp only [FS.mapped] at hs
    split at hs
    · rename_i hm
      obtain ⟨rfl, hl, h0⟩ := hm
      rw [List.length_take] at hl
      exact ⟨rfl, by omega, h0⟩
    · cases hs
  · rintro ⟨rfl, hl, h0⟩
    refine ⟨?_, _, rfl⟩
    simp only [FS.mapped]
    rw [if_pos ⟨trivial, by rw [List.length_take]; omega, h0⟩]

theorem exists_stat (hn : n < 2 ^ 64) : ∃ st : Stat, st.stSize.toNat = n :=
  ⟨.ofSize n, by simp only [Stat.ofSize, UInt64.toNat_ofNat', Nat.mod_eq_of_lt hn]⟩

end Reading

def Complete : (o : Op) → o.Res → Prop
  | .write _ buf, (r : Int) => r = buf.length
  | _, _ => True

theorem complete_write {fs fs' : FS} {r : Int} :
    fs.written (.repo k) buf r = some fs' ∧ Complete (.write (.repo k) buf) r ↔
      r = buf.length ∧ fs' = fs.append k buf := by
  constructor
  · rintro ⟨hw, rfl : r = buf.length⟩
    rw [FS.written, if_neg (by omega), if_pos (by omega), Int.toNat_natCast, List.take_length,
      Option.some.injEq] at hw
    exact ⟨rfl, hw.symm⟩
  · rintro ⟨rfl, rfl⟩
    refine ⟨?_, rfl⟩
    rw [FS.written, if_neg (by omega), if_pos (by omega), Int.toNat_natCast, List.take_length]

theorem FS.append_append (fs : FS) (k : Nat) (a b : List Byte) :
    (fs.append k a).append k b = fs.append k (a ++ b) := by
  simp only [FS.append, Function.update_self, Function.update_idem, List.append_assoc]

/-- A step that is taken only if the answer is one of those allowed. -/
def FS.stepIf (ok : (o : Op) → o.Res → Prop) [∀ o r, Decidable (ok o r)] (fs : FS) (o : Op)
    (r : o.Res) : Option FS :=
  if ok o r then fs.step o r else none

theorem exec_runsTo {ok : (o : Op) → o.Res → Prop} [∀ o r, Decidable (ok o r)]
    {policy : FS → (o : Op) → o.Res} {p : Proc α}
    (h : Prog.exec policy (FS.stepIf ok) n fs p = some (x, fs')) : RunsTo ok fs p x fs' := by
  apply Prog.exec_runs _ h
  intro fs o fs₁ hs
  rw [FS.stepIf] at hs
  split at hs
  · rename_i hok
    exact ⟨hs, hok⟩
  · cases hs

end SelfGit
