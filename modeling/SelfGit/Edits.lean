import SelfGit.Ascending
import SelfGit.ObjectNames
import SelfGit.UpdateCache

namespace SelfGit
open Foundation
set_option autoImplicit true

/-- The array and its counts fit together, whatever the slots hold. -/
structure Cache.Shape (c : Cache) : Prop where
  nr : c.activeNr ≤ c.activeAlloc
  len : c.activeCache.length = c.activeAlloc
  alloc : c.activeAlloc < 2 ^ 31

theorem Cache.null_shape : Cache.null.Shape := ⟨Nat.le_refl _, rfl, by decide⟩

theorem Cache.Holds.shape (h : Cache.Holds c es) : c.Shape :=
  ⟨h.nr.trans_le h.length_le, h.len, h.alloc⟩

theorem cacheNamePosLoop_range (hfl : first ≤ last)
    (hp : cacheNamePosLoop slots name namelen fuel first last = some pos) :
    -(last : Int) ≤ pos ∧ pos ≤ last := by
  induction fuel generalizing first last with
  | zero =>
    have := Option.some.inj hp
    omega
  | succ fuel ih =>
    rw [cacheNamePosLoop] at hp
    split at hp
    · split at hp
      · simp only at hp
        split at hp
        · split at hp
          · have := Option.some.inj hp
            omega
          · split at hp
            · have := ih (by omega) hp
              omega
            · exact ih (by omega) hp
        · cases hp
      · cases hp
    · have := Option.some.inj hp
      omega

theorem Cache.Shape.search (h : Cache.Shape c) (hp : cacheNamePos c name namelen = some pos) :
    -(c.activeNr : Int) ≤ pos ∧ pos ≤ c.activeNr := by
  have hnr := h.nr
  have hal := h.alloc
  rw [cacheNamePos, toInt_of_lt (by omega), Int.toNat_natCast] at hp
  exact cacheNamePosLoop_range (Nat.zero_le _) hp

theorem removeFileFromCache_shape (h : Cache.Shape c)
    (hr : removeFileFromCache c path = some c') : c'.Shape := by
  rw [removeFileFromCache, Option.bind_eq_bind, Option.bind_eq_some_iff] at hr
  obtain ⟨pos, hp, hr⟩ := hr
  have hb := h.search hp
  have hnr := h.nr
  have hal := h.alloc
  split at hr
  · have hdec : (c.activeNr + 2 ^ 32 - 1) % 2 ^ 32 ≤ c.activeAlloc := by omega
    simp only at hr
    split at hr
    · rw [Option.bind_eq_bind, Option.bind_eq_some_iff] at hr
      obtain ⟨slots, hm, hr⟩ := hr
      cases hr
      exact ⟨hdec, (memmove_length hm).trans h.len, hal⟩
    · cases hr
      exact ⟨hdec, h.len, hal⟩
  · cases hr
    exact h

theorem Cache.insertAt_shape {c c' : Cache} (hlen : c.activeCache.length = c.activeAlloc)
    (hal : c.activeAlloc < 2 ^ 31) (hnr : c.activeNr < 2 ^ 31) (hk : k ≤ c.activeNr)
    (hi : c.insertAt k ce = some c') : c'.Shape := by
  have hb := Cache.insertAt_bound hi hk hnr
  simp only [Cache.insertAt, Option.bind_eq_bind] at hi
  rw [Nat.mod_eq_of_lt (by omega), if_pos (by omega), Option.bind_eq_some_iff] at hi
  obtain ⟨xs, hm, hi⟩ := hi
  rw [Option.bind_eq_some_iff] at hi
  obtain ⟨ys, hst, hi⟩ := hi
  cases hi
  exact ⟨by simp only; omega, (store_length hst).trans ((memmove_length hm).trans hlen), hal⟩

theorem addCacheEntry_shape (h : Cache.Shape c) (ha : addCacheEntry c ce = some c') :
    c'.Shape := by
  rw [addCacheEntry, Option.bind_eq_bind, Option.bind_eq_some_iff] at ha
  obtain ⟨pos, hp, ha⟩ := ha
  have hb := h.search hp
  have hnr := h.nr
  have hal := h.alloc
  split at ha
  · rw [Option.bind_eq_bind, Option.bind_eq_some_iff] at ha
    obtain ⟨xs, hst, ha⟩ := ha
    cases ha
    exact ⟨h.nr, (store_length hst).trans h.len, hal⟩
  · split at ha
    · refine Cache.insertAt_shape ?_ (allocNr_lt _) ?_ ?_ ha
      · simp only [Cache.grow, List.length_append, List.length_take, List.length_replicate]
        omega
      · simp only [Cache.grow]
        omega
      · simp only [Cache.grow]
        omega
    · exact Cache.insertAt_shape h.len hal (by omega) (by omega) ha

/-- The edits that the command line makes of a cache, path by path. `ok` is what is known of the
answers that led there. -/
inductive Edits (L : Lib) (ok : (o : Op) → o.Res → Prop) (objects : List Path) :
    Cache → List CStr → Cache → Prop
  | done : Edits L ok objects c [] c
  | skipped (hv : verifyPath p = false) (h : Edits L ok objects c ps c') :
      Edits L ok objects c (p :: ps) c'
  | added (hv : verifyPath p = true) (hp : p.1.length < pathMax)
      (hst : ok (.fstat fd) (some st)) (hs : sha1FileName L s ∈ objects)
      (ha : addCacheEntry c { newEntry p st with sha1 := s } = some d)
      (h : Edits L ok objects d ps c') : Edits L ok objects c (p :: ps) c'
  | removed (hv : verifyPath p = true) (hm : ok (.openRead p.1) (Except.error Errno.ENOENT))
      (hr : removeFileFromCache c p.1 = some d) (hn : ok (.noReturn c p.1) (0 : Int))
      (h : Edits L ok objects d ps c') : Edits L ok objects c (p :: ps) c'

theorem Edits.mono (h : Edits L ok objects c ps c') (ho : objects ⊆ objects') :
    Edits L ok objects' c ps c' := by
  induction h with
  | done => exact .done
  | skipped hv _ ih => exact .skipped hv ih
  | added hv hp hst hs ha _ ih => exact .added hv hp hst (ho hs) ha ih
  | removed hv hm hr hn _ ih => exact .removed hv hm hr hn ih

theorem Edits.shape (h : Edits L ok objects c ps c') (hc : c.Shape) : c'.Shape := by
  induction h with
  | done => exact hc
  | skipped _ _ ih => exact ih hc
  | added _ _ _ _ ha _ ih => exact ih (addCacheEntry_shape hc ha)
  | removed _ _ hr _ _ ih => exact ih (removeFileFromCache_shape hc hr)

/-- A property of the entries that every single edit keeps, all of them keep. -/
theorem Edits.preserves {P : List CacheEntry → Prop} (h : Edits L ok objects c ps c')
    (hadd : ∀ es es' (p : CStr) fd (st : Stat) s, p.1.length < pathMax →
      ok (.fstat fd) (some st) → sha1FileName L s ∈ objects →
      Added es { newEntry p st with sha1 := s } es' → P es → P es')
    (hrem : ∀ c es es' (p : CStr), c.Holds es → ok (.openRead p.1) (Except.error Errno.ENOENT) →
      ok (.noReturn c p.1) (0 : Int) → Removed es p.1 es' → P es → P es')
    (hc : c.Holds es) (hP : P es) : ∃ es', c'.Holds es' ∧ P es' := by
  induction h generalizing es with
  | done => exact ⟨es, hc, hP⟩
  | skipped _ _ ih => exact ih hc hP
  | added _ hp hst hs ha _ ih =>
    obtain ⟨es₁, hc₁, h₁⟩ := addCacheEntry_spec hc ha
    exact ih hc₁ (hadd _ _ _ _ _ _ hp hst hs h₁ hP)
  | removed _ hm hr hn _ ih =>
    obtain ⟨es₁, hc₁, h₁⟩ := removeFileFromCache_spec hc hr
    exact ih hc₁ (hrem _ _ _ _ hc hm hn h₁ hP)

/-- The file that `write_cache` makes of a cache. -/
def Cache.image (L : Lib) (c : Cache) : Option (List Byte) :=
  (blocksOf (toInt c.activeNr).toNat c.activeCache).map fun blocks =>
    cacheHeader L c.activeNr blocks ++ blocks.flatten

theorem blocksOf_some {slots : List (Option CacheEntry)} (h : blocksOf n slots = some blocks) :
    ∃ (es : List CacheEntry) (rest : List (Option CacheEntry)), es.length = n ∧
      slots = es.map some ++ rest ∧ blocks = es.map CacheEntry.block := by
  induction n generalizing slots blocks with
  | zero =>
    cases h
    exact ⟨[], slots, rfl, rfl, rfl⟩
  | succ n ih =>
    cases slots with
    | nil => cases h
    | cons slot slots =>
      cases slot with
      | none => cases h
      | some ce =>
        rw [blocksOf, Option.map_eq_some_iff] at h
        obtain ⟨bs, hb, rfl⟩ := h
        obtain ⟨es, rest, hl, rfl, rfl⟩ := ih hb
        exact ⟨ce :: es, rest, by simp [hl], rfl, rfl⟩

theorem blocksOf_map (es : List CacheEntry) (rest : List (Option CacheEntry)) :
    blocksOf es.length (es.map some ++ rest) = some (es.map CacheEntry.block) := by
  induction es with
  | nil => rfl
  | cons e es ih =>
    simp only [List.length_cons, List.map_cons, List.cons_append, blocksOf, ih, Option.map_some]

theorem Cache.Shape.holds_of_image (h : Cache.Shape c) (hi : c.image L = some b) :
    ∃ es, c.Holds es ∧ b = cacheImage L es := by
  have hnr := h.nr
  have hal := h.alloc
  rw [Cache.image, toInt_of_lt (by omega), Int.toNat_natCast, Option.map_eq_some_iff] at hi
  obtain ⟨blocks, hb, rfl⟩ := hi
  obtain ⟨es, rest, hl, hs, rfl⟩ := blocksOf_some hb
  exact ⟨es, ⟨hl.symm, h.len, hal, rest, hs⟩, by rw [cacheImage, hl]⟩

theorem Cache.Holds.image_eq (h : Cache.Holds c es) : c.image L = some (cacheImage L es) := by
  obtain ⟨rest, hs⟩ := h.slots
  rw [Cache.image, h.nr, toInt_of_lt h.length_lt, Int.toNat_natCast, hs, blocksOf_map]
  rfl

end SelfGit
