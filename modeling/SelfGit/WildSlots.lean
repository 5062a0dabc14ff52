import SelfGit.Edits

namespace SelfGit
open Foundation
set_option autoImplicit true

/-- One of the slots that count holds no pointer that may be followed. -/
def Cache.Wild (c : Cache) : Prop := ∃ k < c.activeNr, c.activeCache[k]? = some none

theorem map_some_or_none_mem (xs : List (Option α)) :
    (∃ ys : List α, xs = ys.map some) ∨ none ∈ xs := by
  induction xs with
  | nil => exact .inl ⟨[], rfl⟩
  | cons x xs ih =>
    cases x with
    | none => exact .inr List.mem_cons_self
    | some a =>
      rcases ih with ⟨ys, rfl⟩ | hn
      · exact .inl ⟨a :: ys, rfl⟩
      · exact .inr (List.mem_cons_of_mem _ hn)

theorem Cache.Shape.holds_or_wild (h : Cache.Shape c) : (∃ es, c.Holds es) ∨ c.Wild := by
  have hnr := h.nr
  have hlen := h.len
  rcases map_some_or_none_mem (c.activeCache.take c.activeNr) with ⟨es, hes⟩ | hn
  · refine .inl ⟨es, ?_, hlen, h.alloc, c.activeCache.drop c.activeNr, ?_⟩
    · have hl := congrArg List.length hes
      rw [List.length_take, List.length_map] at hl
      omega
    · rw [← hes, List.take_append_drop]
  · obtain ⟨k, hk, hkn⟩ := List.getElem_of_mem hn
    have hlt : k < c.activeNr := by
      rw [List.length_take] at hk
      omega
    refine .inr ⟨k, hlt, ?_⟩
    rw [← hkn, List.getElem_take, List.getElem?_eq_getElem (by omega)]

theorem Cache.Wild.not_holds (hw : Cache.Wild c) : ¬ c.Holds es := by
  intro hes
  obtain ⟨k, hk, hn⟩ := hw
  rw [hes.slot (hes.nr ▸ hk)] at hn
  cases hn

theorem Cache.Wild.image (hw : Cache.Wild c) (h : c.Shape) : c.image L = none := by
  cases hi : c.image L with
  | none => rfl
  | some b =>
    obtain ⟨es, hes, -⟩ := h.holds_of_image hi
    exact absurd hes hw.not_holds

theorem cacheNamePosLoop_found
    (hp : cacheNamePosLoop slots name namelen fuel first last = some pos) (h0 : pos < 0) :
    ∃ ce, slots[(-pos - 1).toNat]? = some (some ce) ∧
      cacheNameCompare name namelen ce.name ce.namelen.toNat = 0 := by
  induction fuel generalizing first last with
  | zero =>
    have := Option.some.inj hp
    omega
  | succ fuel ih =>
    rw [cacheNamePosLoop] at hp
    split at hp
    · split at hp
      · simp only at hp
        split at hp
        · rename_i ce hce
          split at hp
          · rename_i hc
            have hpos := Option.some.inj hp
            rw [show (-pos - 1).toNat = (last + first) / 2 by omega]
            exact ⟨ce, hce, hc⟩
          · split at hp
            · exact ih hp
            · exact ih hp
        · cases hp
      · cases hp
    · have := Option.some.inj hp
      omega

theorem Cache.Wild.insertAt (hw : Cache.Wild c) (hk : k ≤ c.activeNr) (hlt : c.activeNr < 2 ^ 31)
    (hi : c.insertAt k ce = some c') : c'.Wild := by
  obtain ⟨j, hj, hn⟩ := hw
  simp only [Cache.insertAt, Option.bind_eq_bind] at hi
  rw [Nat.mod_eq_of_lt (by omega), if_pos (by omega), Option.bind_eq_some_iff] at hi
  obtain ⟨xs, hm, hi⟩ := hi
  rw [Option.bind_eq_some_iff] at hi
  obtain ⟨ys, hst, hi⟩ := hi
  cases hi
  obtain ⟨-, rfl⟩ := store_some hst
  by_cases hjk : j < k
  · refine ⟨j, by simp only; omega, ?_⟩
    rw [List.getElem?_set_ne (by omega), memmove_getElem? hm, if_neg (by omega)]
    exact hn
  · refine ⟨j + 1, by simp only; omega, ?_⟩
    rw [List.getElem?_set_ne (by omega), memmove_getElem? hm, if_pos (by omega),
      show k + (j + 1 - (k + 1)) = j by omega]
    exact hn

theorem Cache.Wild.add (hw : Cache.Wild c) (h : c.Shape) (ha : addCacheEntry c ce = some c') :
    c'.Wild := by
  rw [addCacheEntry, Option.bind_eq_bind, Option.bind_eq_some_iff] at ha
  obtain ⟨pos, hp, ha⟩ := ha
  have hb := h.search hp
  have hnr := h.nr
  have hal := h.alloc
  split at ha
  · rename_i h0
    obtain ⟨e, he, -⟩ := cacheNamePosLoop_found hp h0
    rw [Option.bind_eq_bind, Option.bind_eq_some_iff] at ha
    obtain ⟨xs, hst, ha⟩ := ha
    obtain ⟨-, rfl⟩ := store_some hst
    cases ha
    obtain ⟨k, hk, hn⟩ := hw
    refine ⟨k, hk, ?_⟩
    have hne : (-pos - 1).toNat ≠ k := by
      rintro rfl
      rw [he] at hn
      cases hn
    rw [List.getElem?_set_ne hne]
    exact hn
  · split at ha
    · -- the array was copied to a larger one, or the shift would be out of bounds
      have hbound := Cache.insertAt_bound ha (by simp only [Cache.grow]; omega)
        (by simp only [Cache.grow]; omega)
      refine Cache.Wild.insertAt ?_ (by simp only [Cache.grow]; omega)
        (by simp only [Cache.grow]; omega) ha
      obtain ⟨k, hk, hn⟩ := hw
      refine ⟨k, hk, ?_⟩
      simp only [Cache.grow, List.length_append, List.length_take, List.length_replicate]
        at hbound ⊢
      have hkl : k < c.activeCache.length := (List.getElem?_eq_some_iff.1 hn).1
      rw [List.getElem?_append_left (by rw [List.length_take]; omega),
        List.getElem?_take_of_lt (by omega)]
      exact hn
    · exact hw.insertAt (by omega) (by omega) ha

def AtEnd (c : Cache) (path : Path) : Prop :=
  ∀ k < c.activeNr, ∀ e ∈ c.activeCache[k]?.join, e.key = path → c.activeNr ≤ k + 1

theorem Cache.Wild.remove (hw : Cache.Wild c) (h : c.Shape) (he : AtEnd c path)
    (hr : removeFileFromCache c path = some c') : c'.Wild := by
  rw [removeFileFromCache, Option.bind_eq_bind, Option.bind_eq_some_iff] at hr
  obtain ⟨pos, hp, hr⟩ := hr
  have hb := h.search hp
  have hnr := h.nr
  have hal := h.alloc
  split at hr
  · rename_i h0
    obtain ⟨e, hslot, hc⟩ := cacheNamePosLoop_found hp h0
    have hkey : e.key = path := by
      have := (cacheNameCompare_eq (Nat.le_refl _) (Nat.le_of_lt e.namelen_lt)).1 hc
      rw [List.take_length] at this
      exact this.symm
    have hlast := he (-pos - 1).toNat (by omega) e (by rw [hslot]; rfl) hkey
    rw [if_neg (by omega)] at hr
    cases hr
    obtain ⟨k, hk, hn⟩ := hw
    have hne : k ≠ (-pos - 1).toNat := by
      rintro rfl
      rw [hslot] at hn
      cases hn
    exact ⟨k, by simp only; omega, hn⟩
  · cases hr
    exact hw

end SelfGit
