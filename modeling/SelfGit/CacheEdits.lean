import SelfGit.Cache

namespace SelfGit
open Foundation
set_option autoImplicit true

/-- Where a name belongs, in the signed encoding of `cache_name_pos`, judged by its neighbours. -/
inductive PosOf (es : List CacheEntry) (name : List Byte) (pos : Int) : Prop
  | found (l r : List CacheEntry) (e : CacheEntry) (hp : pos = -l.length - 1)
      (hes : es = l ++ e :: r) (he : e.key = name)
  | absent (l r : List CacheEntry) (hp : pos = l.length) (hes : es = l ++ r)
      (hl : ∀ e ∈ l.getLast?, e.key < name) (hr : ∀ e ∈ r.head?, name < e.key)

theorem lt_of_not_compare {a b : List Byte} (hne : a ≠ b) (hlt : ¬ a < b) : b < a := by
  by_contra hba
  exact hne (List.le_antisymm hba hlt)

theorem PosOf.split {es : List CacheEntry} {k : Nat} (hk : k ≤ es.length)
    (hlo : ∀ e, 0 < k → es[k - 1]? = some e → e.key < name)
    (hhi : ∀ e, es[k]? = some e → name < e.key) : PosOf es name k := by
  refine .absent (es.take k) (es.drop k) ?_ (List.take_append_drop _ _).symm ?_ ?_
  · rw [List.length_take, Nat.min_eq_left hk]
  · intro e hm
    rw [List.getLast?_take] at hm
    split at hm
    · cases hm
    · rename_i h0
      have hlt : k - 1 < es.length := by omega
      rw [List.getElem?_eq_getElem hlt] at hm
      exact hlo e (by omega) (by rw [List.getElem?_eq_getElem hlt]; exact hm)
  · intro e hm
    rw [List.head?_drop] at hm
    exact hhi e hm

/-- The half-open interval still to be searched, with its neighbours on their sides. -/
theorem cacheNamePosLoop_spec (h : Cache.Holds c es) {name : List Byte} {first last : Nat}
    (hn : namelen ≤ name.length) (hf : last ≤ first + fuel) (hfl : first ≤ last)
    (hle : last ≤ es.length)
    (hlo : ∀ e, 0 < first → es[first - 1]? = some e → e.key < name.take namelen)
    (hhi : ∀ e, es[last]? = some e → name.take namelen < e.key)
    (hp : cacheNamePosLoop c.activeCache name namelen fuel first last = some pos) :
    PosOf es (name.take namelen) pos := by
  induction fuel generalizing first last with
  | zero =>
    have he : first = last := by omega
    subst last
    rw [← Option.some.inj hp]
    exact .split hle hlo hhi
  | succ fuel ih =>
    rw [cacheNamePosLoop] at hp
    split at hp
    · rename_i hlt
      split at hp
      · have hnext : (last + first) / 2 < es.length := by omega
        simp only [h.slot hnext] at hp
        have hk := (es[(last + first) / 2]).namelen_lt
        have hceq := cacheNameCompare_eq hn (Nat.le_of_lt hk)
        have hclt := cacheNameCompare_lt hn (Nat.le_of_lt hk)
        split at hp
        · rename_i hc
          refine .found (es.take ((last + first) / 2)) (es.drop ((last + first) / 2 + 1))
            es[(last + first) / 2] ?_ ?_ (hceq.1 hc).symm
          · rw [List.length_take, Nat.min_eq_left (by omega)]
            exact (Option.some.inj hp).symm
          · rw [List.cons_getElem_drop_succ, List.take_append_drop]
        · rename_i hne
          split at hp
          · rename_i hc
            refine ih (by omega) (by omega) (by omega) hlo ?_ hp
            intro e he
            rw [List.getElem?_eq_getElem hnext, Option.some.injEq] at he
            subst e
            exact hclt.1 hc
          · rename_i hc
            refine ih (by omega) (by omega) hle ?_ hhi hp
            intro e _ he
            rw [Nat.add_sub_cancel, List.getElem?_eq_getElem hnext, Option.some.injEq] at he
            subst e
            exact lt_of_not_compare (fun he => hne (hceq.2 he)) (fun hlt => hc (hclt.2 hlt))
      · cases hp
    · have he : first = last := by omega
      subst last
      rw [← Option.some.inj hp]
      exact .split hle hlo hhi

theorem cacheNamePos_spec (h : Cache.Holds c es) {name : List Byte} (hn : namelen ≤ name.length)
    (hp : cacheNamePos c name namelen = some pos) : PosOf es (name.take namelen) pos := by
  have hlt := h.length_lt
  have hlast : (toInt c.activeNr).toNat = es.length := by
    rw [h.nr, toInt_of_lt hlt, Int.toNat_natCast]
  rw [cacheNamePos, hlast] at hp
  refine cacheNamePosLoop_spec h hn (by omega) (Nat.zero_le _) (Nat.le_refl _) ?_ ?_ hp
  · intro e h0
    omega
  · intro e he
    simp at he

/-- What a deletion leaves: the slots to move are counted after the decrement. -/
def dropSlot (es : List CacheEntry) (k : Nat) : List CacheEntry :=
  if k + 1 < es.length then
    es.take k ++ (es.drop (k + 1)).take (es.length - k - 2) ++ (es.drop (es.length - 2)).take 1
  else es.take k

/-- The entries before and after a deletion by name. -/
inductive Removed (es : List CacheEntry) (path : Path) (es' : List CacheEntry) : Prop
  | found (l r : List CacheEntry) (e : CacheEntry) (hes : es = l ++ e :: r) (he : e.key = path)
      (h' : es' = dropSlot es l.length)
  | absent (l r : List CacheEntry) (hes : es = l ++ r) (hl : ∀ e ∈ l.getLast?, e.key < path)
      (hr : ∀ e ∈ r.head?, path < e.key) (h' : es' = es)

/-- The new entry takes the place of its namesake, or comes between its neighbours. -/
inductive Added (es : List CacheEntry) (ce : CacheEntry) (es' : List CacheEntry) : Prop
  | replaced (l r : List CacheEntry) (e : CacheEntry) (hes : es = l ++ e :: r)
      (he : e.key = ce.key) (h' : es' = l ++ ce :: r)
  | inserted (l r : List CacheEntry) (hes : es = l ++ r) (hl : ∀ e ∈ l.getLast?, e.key < ce.key)
      (hr : ∀ e ∈ r.head?, ce.key < e.key) (h' : es' = l ++ ce :: r)

theorem Cache.Holds.of_slots (h : Cache.Holds c es) {xs : List (Option CacheEntry)}
    (hl : xs.length = c.activeAlloc) (hx : xs = fs.map some ++ rest) :
    Cache.Holds { c with activeCache := xs, activeNr := fs.length } fs :=
  ⟨rfl, hl, h.alloc, rest, hx⟩

theorem dropSlot_slots (hk : k + 1 < es.length) (rest : List (Option CacheEntry)) :
    (es.map some ++ rest).take k ++ ((es.map some ++ rest).drop (k + 1)).take
        (es.length - 1 - k - 1) ++ (es.map some ++ rest).drop (k + (es.length - 1 - k - 1)) =
      (dropSlot es k).map some ++ (es.map some ++ rest).drop (es.length - 1) := by
  have h1 : k + (es.length - 1 - k - 1) = es.length - 2 := by omega
  have h2 : es.length - 1 - k - 1 = es.length - k - 2 := by omega
  have hd : (es.map some ++ rest).drop (es.length - 2) =
      ((es.drop (es.length - 2)).take 1).map some ++ (es.map some ++ rest).drop
        (es.length - 1) := by
    rw [← List.take_append_drop 1 ((es.map some ++ rest).drop (es.length - 2)), List.drop_drop,
      show es.length - 2 + 1 = es.length - 1 by omega]
    congr 1
    rw [List.drop_append_of_le_length (by simp), List.take_append_of_le_length (by simp; omega),
      List.map_take, List.map_drop]
  rw [h1, h2, hd, dropSlot, if_pos hk, List.take_append_of_le_length (by simp; omega),
    List.drop_append_of_le_length (by simp; omega),
    List.take_append_of_le_length (by simp; omega)]
  simp only [List.map_append, List.map_take, List.map_drop, List.append_assoc]

theorem dropSlot_length (hk : k < es.length) : (dropSlot es k).length = es.length - 1 := by
  rw [dropSlot]
  split
  · simp only [List.length_append, List.length_take, List.length_drop]
    omega
  · simp only [List.length_take]
    omega

theorem removeFileFromCache_spec (h : Cache.Holds c es)
    (hr : removeFileFromCache c path = some c') :
    ∃ es', c'.Holds es' ∧ Removed es path es' := by
  rw [removeFileFromCache, Option.bind_eq_bind, Option.bind_eq_some_iff] at hr
  obtain ⟨pos, hp, hr⟩ := hr
  have hpos := cacheNamePos_spec h (Nat.le_refl _) hp
  rw [List.take_length] at hpos
  have hlt := h.length_lt
  obtain ⟨rest, hs⟩ := h.slots
  cases hpos with
  | found l r e hp hes he =>
    have hk : l.length < es.length := by simp [hes]
    have hnr : (c.activeNr + 2 ^ 32 - 1) % 2 ^ 32 = es.length - 1 := by
      rw [h.nr]
      omega
    have hkn : (-pos - 1).toNat = l.length := by omega
    rw [if_pos (by omega)] at hr
    simp only [hnr, hkn] at hr
    refine ⟨dropSlot es l.length, ?_, .found l r e hes he rfl⟩
    have hdl := dropSlot_length hk
    split at hr
    · rename_i hlast
      rw [Option.bind_eq_bind, Option.bind_eq_some_iff] at hr
      obtain ⟨slots, hm, hr⟩ := hr
      have hml := memmove_length hm
      obtain ⟨-, -, hmv⟩ := memmove_some hm
      rw [hs, dropSlot_slots (by omega) rest] at hmv
      cases hr
      rw [← hdl]
      exact h.of_slots (hml.trans h.len) hmv
    · rename_i hlast
      cases hr
      have hd : dropSlot es l.length = es.take (es.length - 1) := by
        have hlen : l.length = es.length - 1 := by omega
        rw [dropSlot, if_neg (by omega), hlen]
      refine ⟨hdl.symm, h.len, h.alloc, (es.map some ++ rest).drop (es.length - 1), ?_⟩
      rw [hd, hs, List.map_take]
      conv_lhs => rw [← List.take_append_drop (es.length - 1) (es.map some ++ rest)]
      rw [List.take_append_of_le_length (by simp)]
  | absent l r hp hes hl hr' =>
    rw [if_neg (by omega)] at hr
    cases hr
    exact ⟨es, h, .absent l r hes hl hr' rfl⟩

theorem Cache.grow_holds (h : Cache.Holds c es) (hg : es.length ≤ allocNr c.activeAlloc) :
    c.grow.Holds es := by
  obtain ⟨rest, hs⟩ := h.slots
  refine ⟨h.nr, ?_, allocNr_lt _, rest.take (allocNr c.activeAlloc - es.length) ++
    List.replicate (allocNr c.activeAlloc - c.activeCache.length) none, ?_⟩
  · simp only [Cache.grow, List.length_append, List.length_take, List.length_replicate]
    omega
  · simp only [Cache.grow]
    rw [hs, List.take_append, List.take_of_length_le (by simpa using hg), List.length_map,
      List.append_assoc]

theorem Cache.insertAt_spec (h : Cache.Holds c (l ++ r)) (hi : c.insertAt l.length ce = some c') :
    c'.Holds (l ++ ce :: r) := by
  have hlt := h.length_lt
  have hnr : (c.activeNr + 1) % 2 ^ 32 = (l ++ ce :: r).length := by
    rw [h.nr]
    simp only [List.length_append, List.length_cons] at hlt ⊢
    omega
  simp only [Cache.insertAt, hnr, Option.bind_eq_bind] at hi
  rw [if_pos (by simp), Option.bind_eq_some_iff] at hi
  obtain ⟨xs, hm, hi⟩ := hi
  rw [Option.bind_eq_some_iff] at hi
  obtain ⟨ys, hst, hi⟩ := hi
  obtain ⟨rest, hs⟩ := h.slots
  have hlen := (store_length hst).trans ((memmove_length hm).trans h.len)
  rw [hs, List.map_append, show (l ++ ce :: r).length - l.length - 1 = (r.map some).length by
      simp, show l.length = (l.map some).length by simp] at hm
  rw [show l.length = (l.map some).length by simp] at hst
  obtain ⟨x, -, hz⟩ := memmove_store_insert hm hst
  rw [← Option.some.inj hi]
  have hx : ys = (l ++ ce :: r).map some ++ rest.tail := by
    rw [hz]
    simp
  exact h.of_slots hlen hx

theorem Cache.insertAt_bound (hi : Cache.insertAt c k ce = some c') (hk : k ≤ c.activeNr)
    (hlt : c.activeNr < 2 ^ 31) : c.activeNr < c.activeCache.length := by
  simp only [Cache.insertAt, Option.bind_eq_bind] at hi
  rw [Nat.mod_eq_of_lt (by omega), if_pos (by omega), Option.bind_eq_some_iff] at hi
  obtain ⟨xs, hm, -⟩ := hi
  have hb := (memmove_some hm).1
  omega

theorem addCacheEntry_spec (h : Cache.Holds c es) (ha : addCacheEntry c ce = some c') :
    ∃ es', c'.Holds es' ∧ Added es ce es' := by
  rw [addCacheEntry, Option.bind_eq_bind, Option.bind_eq_some_iff] at ha
  obtain ⟨pos, hp, ha⟩ := ha
  have hpos := cacheNamePos_spec h (Nat.le_of_lt ce.namelen_lt) hp
  cases hpos with
  | found l r e hp hes he =>
    rw [if_pos (by omega), show (-pos - 1).toNat = l.length by omega, Option.bind_eq_bind,
      Option.bind_eq_some_iff] at ha
    obtain ⟨xs, hst, ha⟩ := ha
    have hsl := store_length hst
    obtain ⟨rest, hs⟩ := h.slots
    rw [hs, hes, List.map_append, List.map_cons, List.append_assoc, List.cons_append,
      show l.length = (l.map some).length by simp, store_append, Option.some.injEq] at hst
    cases ha
    refine ⟨l ++ ce :: r, ?_, .replaced l r e hes he rfl⟩
    have hnr : c.activeNr = (l ++ ce :: r).length := by
      rw [h.nr, hes]
      simp
    rw [hnr]
    have hx : xs = (l ++ ce :: r).map some ++ rest := by
      rw [← hst]
      simp
    exact h.of_slots (hsl.trans h.len) hx
  | absent l r hp hes hl hr =>
    have hlt := h.length_lt
    rw [if_neg (by omega), show pos.toNat = l.length by omega] at ha
    have hle : l.length ≤ c.activeNr := by
      rw [h.nr, hes]
      simp
    refine ⟨l ++ ce :: r, ?_, .inserted l r hes hl hr rfl⟩
    split at ha
    · -- a capacity that wrapped would have left the shift out of bounds
      have hb := Cache.insertAt_bound ha hle (by have := h.nr; simp only [Cache.grow]; omega)
      simp only [Cache.grow, List.length_append, List.length_take, List.length_replicate,
        h.nr] at hb
      have hg := Cache.grow_holds h (by omega)
      rw [hes] at hg
      exact Cache.insertAt_spec hg ha
    · rw [hes] at h
      exact Cache.insertAt_spec h ha

end SelfGit
