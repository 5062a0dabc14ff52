import SelfGit.UpdateCacheTerms

namespace SelfGit
open Foundation
set_option autoImplicit true

/-- What is required of the moment a process gets the lock. -/
def OnLock (cond : FS → View → Prop) (fs : FS) (g : View) : (o : Op) → o.Res → Prop
  | .openExcl p, (r : Except Errno Fd) =>
    match r with
    | .ok _ => p = lockPath → cond fs g
    | .error _ => True
  | _, _ => True

def FS.install (fs : FS) (k : Nat) : FS :=
  { fs with dir := Function.update (Function.update fs.dir indexPath (some k)) lockPath none }

def FS.unlock (fs : FS) : FS := { fs with dir := Function.update fs.dir lockPath none }

/-- All that one operation of a process on its terms can do to the repository and to its view. -/
inductive Move (cond : FS → View → Prop) (ok : (o : Op) → o.Res → Prop) (fs : FS) (g : View) :
    FS → View → Prop
  | idle : Move cond ok fs g fs g
  | found (hd : fs.dir p = some i) : Move cond ok fs g fs (g.more (p :: g.objects))
  | absent (hs : g.seen = none) (hd : fs.dir indexPath = none) :
      Move cond ok fs g fs { g with seen := some none }
  | opened (hs : g.seen = none) (hd : fs.dir indexPath = some i) :
      Move cond ok fs g fs { g with handle := some i }
  | sized (hs : g.seen = none) (hh : g.handle = some i) :
      Move cond ok fs g fs { g with size := some (fs.data i).length }
  | read (hs : g.seen = none) (hh : g.handle = some i) (hz : g.size = some m.length)
      (hm : m = (fs.data i).take m.length) : Move cond ok fs g fs { g with seen := some (some m) }
  | locked (hc : cond fs g) (hl : g.lock = none) (hs : g.seen = some s)
      (hd : fs.dir lockPath = none) :
      Move cond ok fs g (fs.create lockPath) { g with lock := some fs.next, written := [] }
  | made (ho : g.object = none) (hp : p = sha1FileName g.lib s) (hd : fs.dir p = none) :
      Move cond ok fs g (fs.create p)
        { g with object := some (fs.next, p), objects := p :: g.objects }
  | stored (ho : g.object = some (k, sha1FileName g.lib (g.lib.sha1 buf)))
      (hn : ok (.write (.repo k) buf) n) :
      Move cond ok fs g (fs.append k (buf.take n.toNat)) { g with object := none }
  | filled (ho : g.object = none) (hl : g.lock = some k) :
      Move cond ok fs g (fs.append k buf) { g with written := g.written ++ buf }
  | installed (hl : g.lock ≠ none) (hs : g.seen = some s) (hc : loaded g.lib s = some c)
      (he : Edits g.lib ok g.objects c g.words c') (hw : c'.image g.lib = some g.written)
      (hd : fs.dir lockPath = some k) :
      Move cond ok fs g (fs.install k) { g with lock := none, installed := some g.written }
  | released (hl : g.lock ≠ none) :
      Move cond ok fs g fs.unlock { g with lock := none }

theorem FS.append_nil (fs : FS) (k : Nat) : fs.append k [] = fs := by
  simp only [FS.append, List.append_nil, Function.update_eq_self]

variable {cond : FS → View → Prop} {ok : (o : Op) → o.Res → Prop} {fs : FS} {g : View}

theorem Move.of_opened (h : fs.opened p r = some fs') :
    Move cond ok fs g fs' (g.opened p r) := by
  have hsame : fs' = fs ∧ (p = indexPath → (∀ i, r = .ok (.repo i) → fs.dir indexPath = some i) ∧
      (r = .error .ENOENT → fs.dir indexPath = none)) := by
    rw [FS.opened.eq_def] at h
    split at h
    · split at h
      · rename_i hr
        cases h
        exact ⟨rfl, fun _ => by simp [hr]⟩
      · cases h
    · cases hd : fs.dir p with
      | none =>
        simp only [hd] at h
        split at h <;> grind
      | some i =>
        simp only [hd] at h
        split at h <;> grind
  obtain ⟨rfl, hidx⟩ := hsame
  rw [View.opened.eq_def]
  split
  · split
    · rename_i hp
      exact .opened hp.2 ((hidx hp.1).1 _ rfl)
    · exact .idle
  · split
    · rename_i hp
      exact .absent hp.2 ((hidx hp.1).2 rfl)
    · exact .idle
  · exact .idle

theorem Move.of_statted (h : fs.statted fd r = some fs') :
    Move cond ok fs g fs' (g.statted fd r) := by
  rw [FS.statted.eq_def] at h
  split at h
  · rename_i i st
    split at h
    · rename_i hsz
      cases h
      simp only [View.statted, hsz]
      split
      · rename_i hh
        exact .sized hh.2 hh.1
      · exact .idle
    · cases h
  · split at h
    · cases h
      exact .idle
    · cases h
  · cases h
    simp only [View.statted]
    exact .idle

theorem Move.of_mapped (hm : g.mayMap fd len) (h : fs.mapped fd len r = some fs') :
    Move cond ok fs g fs' (g.mapped fd r) := by
  rw [FS.mapped.eq_def] at h
  split at h
  · rename_i i m
    split at h
    · rename_i hmap
      obtain ⟨htake, rfl, -⟩ := hmap
      cases h
      simp only [View.mapped]
      split
      · rename_i hh
        exact .read hh.2 hh.1 (hm i rfl hh.1 hh.2) htake
      · exact .idle
    · cases h
  · split at h
    · cases h
      exact .idle
    · cases h
  · cases h
    simp only [View.mapped]
    exact .idle

theorem Move.of_created {r : Except Errno Fd} (hm : g.mayCreate p)
    (hc : OnLock cond fs g (.openExcl p) r) (h : fs.created p r = some fs') :
    Move cond ok fs g fs' (g.created p r) := by
  cases r with
  | error e =>
    simp only [FS.created] at h
    split at h
    · cases h
    · rename_i hx
      cases h
      cases e with
      | EEXIST =>
        simp only [View.created]
        split
        · exact .idle
        · obtain ⟨i, hi⟩ : ∃ i, fs.dir p = some i :=
            Option.ne_none_iff_exists'.1 fun hd => hx ⟨rfl, hd⟩
          exact .found hi
      | ENOENT => exact .idle
      | other => exact .idle
  | ok fd =>
    simp only [FS.created] at h
    split at h
    · rename_i hfd
      obtain ⟨rfl, hd, -⟩ := hfd
      cases h
      rcases hm with ⟨rfl, hl, s, c, hs, -⟩ | ⟨ho, s, rfl⟩
      · simp only [View.created, ↓reduceIte]
        exact .locked (hc rfl) hl hs hd
      · simp only [View.created, if_neg (sha1FileName_ne_lock g.lib s)]
        exact .made ho rfl hd
    · cases h

theorem FS.written_repo (h : FS.written fs (.repo i) buf r = some fs') :
    fs' = fs.append i (buf.take r.toNat) := by
  rw [FS.written] at h
  split at h
  · rename_i hr
    cases h
    rw [hr, show (-1 : Int).toNat = 0 from rfl, List.take_zero, FS.append_nil]
  · split at h
    · exact (Option.some.inj h).symm
    · cases h

theorem Move.of_written (hm : g.mayWrite fd buf) (hn : ok (.write fd buf) r)
    (h : fs.written fd buf r = some fs') : Move cond ok fs g fs' (g.wrote fd buf r) := by
  obtain ⟨i, rfl, hm⟩ := hm
  rw [FS.written_repo h]
  rcases hm with ⟨p, ho, rfl⟩ | ⟨ho, hl⟩
  · simp only [View.wrote, ho, Option.map_some, ↓reduceIte]
    exact .stored ho hn
  · have hne : g.object.map Prod.fst ≠ some i := by simp [ho]
    simp only [View.wrote, if_neg hne, if_pos hl]
    exact .filled ho hl

theorem Move.of_renamed (hm : g.mayRename ok src dst) (h : fs.renamed src dst r = some fs') :
    Move cond ok fs g fs' (g.renamed r) := by
  obtain ⟨rfl, rfl, hl, s, c, c', hs, hc, he, hw⟩ := hm
  cases r with
  | false =>
    cases h
    exact .idle
  | true =>
    cases hd : fs.dir lockPath with
    | none => simp [FS.renamed, hd] at h
    | some k =>
      simp only [FS.renamed, hd, Option.some.injEq] at h
      rw [← h]
      exact .installed hl hs hc he hw hd

theorem Move.of_unlinked (hl : g.lock ≠ none) (h : fs.unlinked lockPath r = some fs') :
    Move cond ok fs g fs' (g.unlinked r) := by
  cases r with
  | false =>
    cases hd : fs.dir lockPath with
    | none =>
      simp only [FS.unlinked, hd, Option.some.injEq] at h
      rw [← h]
      exact .idle
    | some k => simp [FS.unlinked, hd] at h
  | true =>
    cases hd : fs.dir lockPath with
    | none => simp [FS.unlinked, hd] at h
    | some k =>
      simp only [FS.unlinked, hd, Option.some.injEq] at h
      rw [← h]
      exact .released hl

theorem Move.of_accessed {r : Bool}
    (h : (if r && (fs.dir p).isNone then none else some fs) = some fs') :
    Move cond ok fs g fs' (g.accessed p r) := by
  cases r with
  | false =>
    simp only [Bool.false_and, Bool.false_eq_true, ↓reduceIte, Option.some.injEq] at h
    rw [← h]
    exact .idle
  | true =>
    cases hd : fs.dir p with
    | none => simp [hd] at h
    | some i =>
      simp only [hd, Option.isNone_some, Bool.and_false, Bool.false_eq_true, ↓reduceIte,
        Option.some.injEq] at h
      rw [← h]
      exact .found hd

/-- An operation on the terms is one of the moves. -/
theorem Move.of_step {o : Op} {r : o.Res} (hm : (terms ok).allows g o) (hok : ok o r)
    (hc : OnLock cond fs g o r) (h : fs.step o r = some fs') :
    Move cond ok fs g fs' (g.next o r) := by
  obtain ⟨-, hm⟩ := hm
  cases o with
  | accessDir p =>
    cases h
    exact .idle
  | access p => exact .of_accessed h
  | openRead p => exact .of_opened h
  | openExcl p => exact .of_created hm hc h
  | fstat fd => exact .of_statted h
  | mmap fd len => exact .of_mapped hm h
  | write fd buf => exact .of_written hm hok h
  | rename src dst => exact .of_renamed hm h
  | unlink p =>
    obtain ⟨rfl, hl⟩ := hm
    exact .of_unlinked hl h
  | malloc n =>
    simp only [FS.step] at h
    split at h
    · cases h
    · cases h
      exact .idle
  | memory n =>
    simp only [FS.step] at h
    split at h
    · cases h
      exact .idle
    · cases h
  | noReturn c p =>
    cases h
    exact .idle
  | treeOf es =>
    cases h
    exact .idle

end SelfGit
