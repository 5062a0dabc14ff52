import SelfGit.Console

namespace SelfGit
open Foundation
set_option autoImplicit true

def Changing : Op → Prop
  | .openExcl _ | .write _ _ | .rename _ _ | .unlink _ => True
  | _ => False

def Renaming : Op → Prop
  | .rename _ _ | .unlink _ => True
  | _ => False

/-- The operations that are watched: those that take a name away, and the opening of the index. -/
def Watched (o : Op) : Prop := Renaming o ∨ o = .openRead indexPath

theorem Renaming.changing (o : Op) (h : Renaming o) : Changing o := by
  cases o <;> first | exact h | trivial

def Unsettling (o : Op) : Prop := Changing o ∨ o = .openRead indexPath

theorem Watched.unsettling (o : Op) (h : Watched o) : Unsettling o :=
  h.imp_left (Renaming.changing o)

theorem step_unchanged {o : Op} {r : o.Res} {fs fs' : FS} (ho : ¬ Changing o)
    (h : fs.step o r = some fs') : fs' = fs := by
  cases o with
  | accessDir p => exact (Option.some.inj h).symm
  | access p => exact ((FS.step_access r).1 h).2
  | openRead p => exact FS.opened_same h
  | openExcl p => exact absurd trivial ho
  | fstat fd => exact FS.statted_same h
  | mmap fd len => exact FS.mapped_same h
  | write fd buf => exact absurd trivial ho
  | rename src dst => exact absurd trivial ho
  | unlink p => exact absurd trivial ho
  | malloc n => exact ((FS.step_malloc r).1 h).2
  | memory n => exact ((FS.step_memory r).1 h).2
  | noReturn c p => exact (Option.some.inj h).symm
  | treeOf es => exact (Option.some.inj h).symm

section Footprints
variable {L : Lib}

theorem readCache_looks (L : Lib) (c : Cache) : (readCache L c).Avoids Changing := by
  rw [readCache]
  split
  · exact Prog.avoids_pure _
  · refine Prog.Avoids.bind (Prog.avoids_ask id) fun r => ?_
    split
    · refine Prog.Avoids.bind (Prog.avoids_ask id) fun r => ?_
      cases r with
      | error e => exact Prog.avoids_pure _
      | ok fd =>
        refine Prog.Avoids.bind (Prog.avoids_ask id) fun r => ?_
        cases r with
        | none => exact Prog.avoids_pure _
        | some st =>
          dsimp only
          split
          · refine Prog.Avoids.bind (Prog.avoids_ask id) fun r => ?_
            cases r with
            | none => exact Prog.avoids_pure _
            | some m => exact Prog.avoids_ofOption _ _
          · exact Prog.avoids_halt _
    · exact Prog.avoids_pure _

theorem readSha1File_looks (L : Lib) (s : Sha1) : (readSha1File L s).Avoids Unsettling := by
  have hopen : ¬ Unsettling (.openRead (sha1FileName L s)) := by
    rintro (h | h)
    · exact h
    · exact sha1FileName_ne_index L s (Op.openRead.inj h)
  rw [readSha1File]
  refine Prog.Avoids.bind (Prog.avoids_ask hopen) fun r => ?_
  cases r with
  | error e => exact Prog.avoids_pure _
  | ok fd =>
    refine Prog.Avoids.bind (Prog.avoids_ask (by simp [Unsettling, Changing])) fun r => ?_
    cases r with
    | none => exact Prog.avoids_pure _
    | some st =>
      refine Prog.Avoids.bind (Prog.avoids_ask (by simp [Unsettling, Changing])) fun r => ?_
      cases r with
      | none => exact Prog.avoids_pure _
      | some map =>
        refine Prog.Avoids.bind (Prog.avoids_ask (by simp [Unsettling, Changing])) fun stack => ?_
        refine Prog.Avoids.bind (Prog.avoids_ofOption _ _) fun n => ?_
        split
        · exact Prog.avoids_pure _
        · refine Prog.Avoids.bind (Prog.avoids_ask (by simp [Unsettling, Changing])) fun r => ?_
          split
          · refine Prog.Avoids.bind (Prog.avoids_ask (by simp [Unsettling, Changing])) fun heap => ?_
            exact Prog.Avoids.bind (Prog.avoids_ofOption _ _) fun buf => Prog.avoids_pure _
          · exact Prog.avoids_pure _

theorem addTreeEntries_looks (L : Lib) (n : Nat) (slots : List (Option CacheEntry))
    (b : TreeBuffer) : (addTreeEntries L n slots b).Avoids Unsettling := by
  induction n generalizing slots b with
  | zero => exact Prog.avoids_pure _
  | succ n ih =>
    cases slots with
    | nil => exact Prog.avoids_halt _
    | cons slot slots =>
      cases slot with
      | none => exact Prog.avoids_halt _
      | some ce =>
        rw [addTreeEntries]
        refine Prog.Avoids.bind (Prog.avoids_ask (by simp [Unsettling, Changing])) fun r => ?_
        split
        · exact Prog.Avoids.bind (Prog.avoids_ofOption _ _) fun b' => ih slots b'
        · exact Prog.avoids_halt _

theorem buildTree_looks (L : Lib) (n : Nat) (c : Cache) : (buildTree L n c).Avoids Unsettling := by
  rw [buildTree]
  split
  · refine Prog.Avoids.bind (addTreeEntries_looks _ _ _ _) fun b => ?_
    exact Prog.Avoids.bind (Prog.avoids_ofOption _ _) fun r => Prog.avoids_pure _
  · exact Prog.avoids_halt _

theorem cacheNamePos_looks (L : Lib) (c : Cache) (name : List Byte) (namelen : Nat) :
    (Remove.cacheNamePos L c name namelen).Avoids Changing := by
  rw [Remove.cacheNamePos]
  refine Prog.Avoids.bind (readCache_looks _ _) fun r => ?_
  dsimp only
  split
  · exact Prog.avoids_pure _
  · exact Prog.Avoids.bind (Prog.avoids_ofOption _ _) fun pos => Prog.avoids_pure _

theorem writeSha1File_stores (L : Lib) (buf : List Byte) (len : Nat) :
    (writeSha1File L buf len).Avoids Watched := by
  have hquiet : ∀ p, ¬ Watched (.openExcl p) := fun p => by simp [Watched, Renaming]
  rw [writeSha1File, writeSha1Buffer]
  refine Prog.Avoids.bind (Prog.Avoids.bind (Prog.avoids_ask (hquiet _)) fun r => ?_) fun r =>
    Prog.avoids_pure _
  cases r with
  | error e => exact Prog.avoids_pure _
  | ok fd =>
    refine Prog.Avoids.bind (Prog.avoids_ask ?_) fun n => Prog.avoids_pure _
    simp [Watched, Renaming]

end Footprints

section Shapes
variable {L : Lib}

theorem loadCache_nr (h : loadCache L c b = some (n, c')) (hn : 0 ≤ n) :
    n = toInt c'.activeNr := by
  rw [loadCache] at h
  split at h
  · cases h
    omega
  · simp only [Option.map_eq_some_iff, Prod.mk.injEq] at h
    obtain ⟨r, -, rfl, rfl⟩ := h
    rfl

theorem loadCache_null_shape (h : loadCache L Cache.null b = some (n, c)) : c.Shape := by
  rw [loadCache] at h
  split at h
  · simp only [Option.some.injEq, Prod.mk.injEq] at h
    exact h.2 ▸ Cache.null_shape
  · simp only [Option.map_eq_some_iff, Prod.mk.injEq] at h
    obtain ⟨r, hr, -, rfl⟩ := h
    obtain ⟨hl, hbound⟩ := fillCache_length hr
    have hal := allocNr_lt (wordAt b 8).toNat
    have hle := hbound (Nat.zero_le _)
    generalize allocNr (wordAt b 8).toNat = alloc at *
    refine ⟨by simpa using hle, ?_, hal⟩
    simp only [List.length_append, List.length_replicate, hl]
    omega

/-- What `read_cache` leaves in a process without a cache: an array whose counts fit. -/
theorem readCache_yields (L : Lib) : (readCache L Cache.null).Yields fun r =>
    r.2.Shape ∧ (0 ≤ r.1 → r.1 = toInt r.2.activeNr) := by
  have hfail : (Cache.null).Shape ∧ (0 ≤ (-1 : Int) → (-1 : Int) = toInt Cache.null.activeNr) :=
    ⟨Cache.null_shape, fun h => absurd h (by omega)⟩
  have hzero : (0 : Int) = toInt Cache.null.activeNr := by simp [toInt, Cache.null]
  rw [readCache, if_neg (by simp [Cache.null])]
  refine Prog.Yields.bind (Prog.yields_any _) fun r _ => ?_
  split
  · refine Prog.Yields.bind (Prog.yields_any _) fun r _ => ?_
    cases r with
    | error e =>
      by_cases he : e = .ENOENT
      · simp only [he, ↓reduceIte]
        exact Prog.yields_pure ⟨Cache.null_shape, fun _ => hzero⟩
      · simp only [he, ↓reduceIte]
        exact Prog.yields_pure hfail
    | ok fd =>
      refine Prog.Yields.bind (Prog.yields_any _) fun r _ => ?_
      cases r with
      | none => exact Prog.yields_pure hfail
      | some st =>
        dsimp only
        split
        · refine Prog.Yields.bind (Prog.yields_any _) fun r _ => ?_
          cases r with
          | none => exact Prog.yields_pure hfail
          | some m =>
            refine Prog.yields_ofOption _ fun b hb => ?_
            exact ⟨loadCache_null_shape hb, fun hn => loadCache_nr hb hn⟩
        · exact Prog.yields_halt _
  · exact Prog.yields_pure hfail

theorem addFileToCache_yields (L : Lib) (p : CStr) (hc : Cache.Shape c) :
    (addFileToCache L c p).Yields fun r => r.2.Shape := by
  rw [addFileToCache]
  refine Prog.Yields.bind (Prog.yields_any _) fun r _ => ?_
  cases r with
  | error e =>
    dsimp only
    split
    · refine Prog.Yields.bind (Prog.yields_ofOption _ fun b hb => hb) fun c' hc' => ?_
      refine Prog.Yields.bind (Prog.yields_any _) fun r _ => ?_
      exact Prog.yields_pure (removeFileFromCache_shape hc hc')
    · exact Prog.yields_pure hc
  | ok fd =>
    refine Prog.Yields.bind (Prog.yields_any _) fun r _ => ?_
    cases r with
    | none => exact Prog.yields_pure hc
    | some st =>
      refine Prog.Yields.bind (Prog.yields_any _) fun r _ => ?_
      dsimp only
      split
      · exact Prog.yields_pure hc
      · refine Prog.Yields.bind (Prog.yields_ofOption _ fun b hb => hb) fun c' hc' => ?_
        exact Prog.yields_pure (addCacheEntry_shape hc hc')

theorem addPaths_yields (L : Lib) (ps : List CStr) (hc : Cache.Shape c) :
    (addPaths L ps c).Yields fun r => r.2.Shape := by
  induction ps generalizing c with
  | nil => exact Prog.yields_pure hc
  | cons p ps ih =>
    rw [addPaths]
    split
    · refine Prog.Yields.bind (addFileToCache_yields L p hc) fun r hr => ?_
      dsimp only
      split
      · exact Prog.yields_pure hr
      · exact ih hr
    · exact ih hc

theorem installCache_yields (L : Lib) (fd : Fd) (hc : Cache.Shape c) :
    (installCache L fd c).Yields fun r => r.2.Shape := by
  have hgive : (giveUp c).Yields fun r => r.2.Shape :=
    Prog.Yields.bind (Prog.yields_any _) fun _ _ => Prog.yields_pure hc
  rw [installCache]
  refine Prog.Yields.bind (Prog.yields_any _) fun w _ => ?_
  split
  · refine Prog.Yields.bind (Prog.yields_any _) fun r _ => ?_
    split
    · exact Prog.yields_pure hc
    · exact hgive
  · exact hgive

theorem updateCache_yields (L : Lib) (argv : List CStr) :
    (updateCache L argv).Yields fun r => r.2.Shape := by
  rw [updateCache]
  refine Prog.Yields.bind (readCache_yields L) fun r hr => ?_
  dsimp only
  split
  · exact Prog.yields_pure hr.1
  · refine Prog.Yields.bind (Prog.yields_any _) fun r' _ => ?_
    cases r' with
    | error e => exact Prog.yields_pure hr.1
    | ok fd =>
      refine Prog.Yields.bind (addPaths_yields L _ hr.1) fun r' hr' => ?_
      split
      · exact installCache_yields L fd hr'
      · exact Prog.Yields.bind (Prog.yields_any _) fun _ _ => Prog.yields_pure hr'

end Shapes

end SelfGit
