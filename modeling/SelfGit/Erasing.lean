import SelfGit.MapUpdate

namespace SelfGit
open Foundation
set_option autoImplicit true

theorem removeFileFromCache_total (h : Cache.Holds c es)
    (hp : cacheNamePos c path path.length = some pos) :
    ∃ c', removeFileFromCache c path = some c' := by
  have hpos := cacheNamePos_spec h (Nat.le_refl _) hp
  have hnr := h.nr
  have hlen := h.len
  have hle := h.length_le
  have hlt := h.length_lt
  rw [removeFileFromCache, hp, Option.bind_eq_bind, Option.bind_some]
  cases hpos with
  | found l r e hp hes he =>
    have hk : l.length < es.length := by simp [hes]
    have hdec : (c.activeNr + 2 ^ 32 - 1) % 2 ^ 32 = es.length - 1 := by omega
    rw [if_pos (by omega)]
    simp only [hdec, show (-pos - 1).toNat = l.length by omega]
    split
    · rw [memmove, if_pos (by omega)]
      exact ⟨_, rfl⟩
    · exact ⟨_, rfl⟩
  | absent l r hp hes hl hr =>
    rw [if_neg (by omega)]
    exact ⟨_, rfl⟩

theorem dropSlot_eq (hk : k + 1 < es.length) :
    dropSlot es k = (es.take (es.length - 1)).eraseIdx k ++
      (es.take (es.length - 1)).drop (es.length - 2) := by
  have h1 : (es.drop (k + 1)).take (es.length - k - 2) =
      (es.take (es.length - 1)).drop (k + 1) := by
    rw [List.drop_take]
    congr 1
    omega
  have h2 : (es.drop (es.length - 2)).take 1 = (es.take (es.length - 1)).drop (es.length - 2) := by
    rw [List.drop_take]
    congr 1
    omega
  have h3 : es.take k = (es.take (es.length - 1)).take k := by
    rw [List.take_take, Nat.min_eq_left (by omega)]
  rw [dropSlot, if_pos hk, h1, h2, h3, List.eraseIdx_eq_take_drop_succ]

theorem dropSlot_mem_take (hk : k + 1 < es.length) (he : e ∈ dropSlot es k) :
    e ∈ es.take (es.length - 1) := by
  rw [dropSlot_eq hk, List.mem_append] at he
  rcases he with he | he
  · exact List.mem_of_mem_eraseIdx he
  · exact List.mem_of_mem_drop he

def LastOnly (es : List CacheEntry) (path : Path) : Prop :=
  ∀ e ∈ es, e.key = path → es.getLast? = some e

/-- What a deletion by name is for: the entry is erased and all others are kept. -/
def Erased (c : Cache) (es : List CacheEntry) (path : Path) : Prop :=
  ∃ c', removeFileFromCache c path = some c' ∧ c'.Holds (others es path) ∧
    (c'.activeNr + 1 = c.activeNr ↔ lookup es path ≠ none)

theorem others_split (ha : Ascending (l ++ e :: r)) : others (l ++ e :: r) e.key = l ++ r := by
  have hne : ∀ f ∈ l ++ r, f.key ≠ e.key := by
    intro f hf hk
    have hmem : f ∈ l ++ e :: r := by
      rcases List.mem_append.1 hf with hf | hf
      · exact List.mem_append_left _ hf
      · exact List.mem_append_right _ (List.mem_cons_of_mem _ hf)
    have hfe := ha.key_inj hmem (List.mem_append_right _ List.mem_cons_self) hk
    subst hfe
    have hnd := ha.nodup
    rw [List.nodup_middle, List.nodup_cons] at hnd
    exact hnd.1 hf
  have hfilter := others_of_ne hne
  simp only [others, List.filter_append] at hfilter ⊢
  simpa using hfilter

theorem others_length (ha : Ascending es) :
    (others es name).length + 1 = es.length ↔ lookup es name ≠ none := by
  cases hl : lookup es name with
  | none =>
    rw [others_of_ne (lookup_eq_none.1 hl)]
    simp
  | some e =>
    obtain ⟨he, rfl⟩ := (lookup_eq_some ha).1 hl
    obtain ⟨l, r, rfl⟩ := List.append_of_mem he
    rw [others_split ha]
    simp
    omega

/-- On entries in order a deletion spares all the others only if it is the last that goes. -/
theorem Removed.others_iff (h : Removed es path es') (ha : Ascending es) :
    es' = others es path ↔ LastOnly es path := by
  cases h with
  | found l r e hes he h' =>
    subst hes he h'
    rw [others_split ha]
    constructor
    · intro heq f hf hk
      rw [ha.key_inj hf (List.mem_append_right _ List.mem_cons_self) hk]
      rcases List.eq_nil_or_concat r with rfl | ⟨init, z, rfl⟩
      · simp
      · -- the last entry would have to be there still
        have hz : z ∈ dropSlot (l ++ e :: init.concat z) l.length := by
          rw [heq]
          simp
        have hlen : (l ++ e :: init.concat z).length = (l ++ e :: init).length + 1 := by
          simp
          omega
        have hmem := dropSlot_mem_take (by simp) hz
        have hsplit : l ++ e :: init.concat z = (l ++ e :: init) ++ [z] := by simp
        rw [hlen, Nat.add_sub_cancel, hsplit, List.take_left' rfl] at hmem
        have hnd := ha.nodup
        rw [hsplit, List.nodup_append] at hnd
        exact absurd rfl (hnd.2.2 z hmem z (List.mem_singleton.2 rfl))
    · intro hlast
      have hl := hlast e (List.mem_append_right _ List.mem_cons_self) rfl
      rcases List.eq_nil_or_concat r with rfl | ⟨init, z, rfl⟩
      · rw [dropSlot, if_neg (by simp), List.take_left, List.append_nil]
      · have hsplit : l ++ e :: init.concat z = (l ++ e :: init) ++ [z] := by simp
        rw [hsplit, List.getLast?_concat, Option.some.injEq] at hl
        have hnd := ha.nodup
        rw [hsplit, List.nodup_append] at hnd
        exact absurd hl.symm (hnd.2.2 e (by simp) z (List.mem_singleton.2 rfl))
  | absent l r hes hl hr h' =>
    subst hes h'
    have hnone := ha.ordered.absent hl hr
    constructor
    · intro _ e he hk
      exact absurd hk (hnone e he)
    · intro _
      exact (others_of_ne hnone).symm

/-- A deletion by name does what it is for if and only if the search gets through and the entry,
if there is one, is the last. The search gets through wherever there are at most 2^30 entries. -/
theorem removal_erases (hc : c.Holds es) (ha : Ascending es) (path : CStr) :
    (Erased c es path.1 ↔
      cacheNamePos c path.1 path.1.length ≠ none ∧ LastOnly es path.1) ∧
    (es.length ≤ 2 ^ 30 → cacheNamePos c path.1 path.1.length ≠ none) := by
  refine ⟨⟨?_, ?_⟩, ?_⟩
  · rintro ⟨c', hr, hc', -⟩
    obtain ⟨es', hes', hrem⟩ := removeFileFromCache_spec hc hr
    refine ⟨?_, (hrem.others_iff ha).1 (hes'.unique hc')⟩
    intro hp
    rw [removeFileFromCache, hp] at hr
    cases hr
  · rintro ⟨hp, hlast⟩
    obtain ⟨pos, hp⟩ := Option.ne_none_iff_exists'.1 hp
    obtain ⟨c', hr⟩ := removeFileFromCache_total hc hp
    obtain ⟨es', hes', hrem⟩ := removeFileFromCache_spec hc hr
    have heq := (hrem.others_iff ha).2 hlast
    rw [heq] at hes'
    refine ⟨c', hr, hes', ?_⟩
    rw [hes'.nr, hc.nr]
    exact others_length ha
  · intro hn hp
    obtain ⟨pos, hp'⟩ := cacheNamePos_total hc hn path.1 path.1.length
    rw [hp] at hp'
    cases hp'

/-- Two entries, of which the second is removed. -/
theorem removal_erases_second :
    Erased ⟨[some (plainEntry (cstr "a")), some (plainEntry (cstr "b"))], 2, 2⟩
      [plainEntry (cstr "a"), plainEntry (cstr "b")] (cstr "b").1 := by
  have hc : Cache.Holds ⟨[some (plainEntry (cstr "a")), some (plainEntry (cstr "b"))], 2, 2⟩
      [plainEntry (cstr "a"), plainEntry (cstr "b")] := ⟨rfl, rfl, by decide, [], rfl⟩
  have ha : Ascending [plainEntry (cstr "a"), plainEntry (cstr "b")] := by
    rw [ascending_iff]
    decide
  apply (removal_erases hc ha (cstr "b")).1.2
  refine ⟨by decide, ?_⟩
  intro e he hk
  rcases List.mem_cons.1 he with rfl | he
  · exact absurd hk (by decide)
  · rw [List.mem_singleton.1 he]
    rfl

/-- Of two entries, the first is to be removed, and the second is lost instead. -/
theorem removal_wrong_entry : ¬ ∀ c es (path : CStr), Cache.Holds c es → Ascending es →
    Erased c es path.1 := by
  intro hall
  obtain ⟨c', hr, hc', -⟩ := hall
    ⟨[some (plainEntry (cstr "a")), some (plainEntry (cstr "b"))], 2, 2⟩
    [plainEntry (cstr "a"), plainEntry (cstr "b")] (cstr "a") ⟨rfl, rfl, by decide, [], rfl⟩ (by
      rw [ascending_iff]
      decide)
  have hr' : removeFileFromCache
      ⟨[some (plainEntry (cstr "a")), some (plainEntry (cstr "b"))], 2, 2⟩ (cstr "a").1 =
      some ⟨[some (plainEntry (cstr "a")), some (plainEntry (cstr "b"))], 1, 2⟩ := by
    decide
  rw [hr', Option.some.injEq] at hr
  subst hr
  have hkept : Cache.Holds ⟨[some (plainEntry (cstr "a")), some (plainEntry (cstr "b"))], 1, 2⟩
      [plainEntry (cstr "a")] := ⟨rfl, rfl, by decide, [some (plainEntry (cstr "b"))], rfl⟩
  exact absurd (hc'.unique hkept) (by decide)

end SelfGit
