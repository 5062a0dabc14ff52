import SelfGit.Edits
import SelfGit.StoredZlib

namespace SelfGit
open Foundation
set_option autoImplicit true

/-- The entry that a name is bound to. -/
def lookup (es : List CacheEntry) (name : List Byte) : Option CacheEntry :=
  es.find? fun e => e.key = name

def others (es : List CacheEntry) (name : List Byte) : List CacheEntry :=
  es.filter fun e => e.key ≠ name

theorem lookup_eq_none : lookup es name = none ↔ ∀ e ∈ es, e.key ≠ name := by
  simp only [lookup, List.find?_eq_none, decide_eq_true_eq, ne_eq]

theorem lookup_others (es : List CacheEntry) (h : name ≠ name') :
    lookup (others es name') name = lookup es name := by
  induction es with
  | nil => rfl
  | cons e es ih =>
    simp only [lookup, others] at ih
    by_cases he : e.key = name
    · have hne : e.key ≠ name' := by rwa [he]
      simp [lookup, others, he, h]
    · by_cases hne : e.key = name'
      · simp only [lookup, others, hne, ne_eq, not_true_eq_false, decide_false, Bool.false_eq_true,
          not_false_eq_true, List.filter_cons_of_neg, ih, h.symm, List.find?_cons_of_neg]
      · simp only [lookup, others, hne, he, ne_eq, not_false_eq_true, decide_true,
          List.filter_cons_of_pos, decide_false, Bool.false_eq_true, List.find?_cons_of_neg, ih]

theorem others_of_ne (h : ∀ e ∈ es, e.key ≠ name) : others es name = es := by
  rw [others, List.filter_eq_self]
  intro e he
  simpa using h e he

theorem Ordered.absent {l r : List CacheEntry} (h : Ordered (l ++ r))
    (hl : ∀ e ∈ l.getLast?, e.key < name) (hr : ∀ e ∈ r.head?, name < e.key) :
    ∀ e ∈ l ++ r, e.key ≠ name := by
  have hal := (h.sublist (List.sublist_append_left l r)).all_lt hl
  have har := (h.sublist (List.sublist_append_right l r)).all_gt hr
  rintro e he rfl
  rcases List.mem_append.1 he with he | he
  · exact List.lt_irrefl _ (hal e he)
  · exact List.lt_irrefl _ (har e he)

theorem Ascending.nodup (h : Ascending es) : es.Nodup := by
  rw [ascending_iff] at h
  refine h.imp ?_
  rintro a b hlt rfl
  exact List.lt_irrefl _ hlt

theorem Ascending.key_inj (h : Ascending es) (ha : a ∈ es) (hb : b ∈ es) (hk : a.key = b.key) :
    a = b := by
  rw [ascending_iff] at h
  obtain ⟨l, r, rfl⟩ := List.append_of_mem ha
  rw [List.pairwise_append, List.pairwise_cons] at h
  obtain ⟨-, ⟨hr, -⟩, hl⟩ := h
  rcases List.mem_append.1 hb with hb | hb
  · have hlt := hl b hb a List.mem_cons_self
    rw [hk] at hlt
    exact absurd hlt (List.lt_irrefl _)
  · rcases List.mem_cons.1 hb with rfl | hb
    · rfl
    · have hlt := hr b hb
      rw [hk] at hlt
      exact absurd hlt (List.lt_irrefl _)

theorem Ascending.ext (h : Ascending es) (h' : Ascending fs) (hm : ∀ e, e ∈ es ↔ e ∈ fs) :
    es = fs := by
  have hp := (List.perm_ext_iff_of_nodup h.nodup h'.nodup).2 hm
  rw [ascending_iff] at h h'
  refine hp.eq_of_pairwise ?_ h h'
  intro a b _ _ hab hba
  exact absurd (List.lt_trans hab hba) (List.lt_irrefl _)

theorem lookup_eq_some (h : Ascending es) :
    lookup es name = some e ↔ e ∈ es ∧ e.key = name := by
  constructor
  · intro hl
    have hk := List.find?_some hl
    exact ⟨List.mem_of_find?_eq_some hl, by simpa using hk⟩
  · rintro ⟨he, hk⟩
    cases hl : lookup es name with
    | none => exact absurd hk (lookup_eq_none.1 hl e he)
    | some f =>
      have hf := List.find?_some hl
      rw [h.key_inj (List.mem_of_find?_eq_some hl) he (by rw [hk]; simpa using hf)]

theorem Added.others (h : Added es ce es') : others es' ce.key = others es ce.key := by
  cases h with
  | replaced l r e hes he h' =>
    subst hes h'
    simp [SelfGit.others, List.filter_append, he]
  | inserted l r hes hl hr h' =>
    subst hes h'
    simp [SelfGit.others, List.filter_append]

theorem Added.length (h : Added es ce es') (ha : Ascending es) :
    es'.length = if lookup es ce.key = none then es.length + 1 else es.length := by
  cases h with
  | replaced l r e hes he h' =>
    have hsome := (lookup_eq_some ha).2 ⟨by rw [hes]; simp, he⟩
    rw [hsome, if_neg (by simp), h', hes]
    simp
  | inserted l r hes hl hr h' =>
    subst hes
    have hnone := lookup_eq_none.2 (ha.ordered.absent hl hr)
    rw [if_pos hnone, h']
    simp only [List.length_append, List.length_cons]
    omega

/-- One name is bound to the new entry, and the others are as before, in their order. -/
structure Updated (es : List CacheEntry) (ce : CacheEntry) (es' : List CacheEntry) : Prop where
  ascending : Ascending es'
  bound : lookup es' ce.key = some ce
  unbound : ∀ name, name ≠ ce.key → lookup es' name = lookup es name
  order : others es' ce.key = others es ce.key

theorem Added.updated (h : Added es ce es') (ha : Ascending es) : Updated es ce es' where
  ascending := h.ascending ha
  bound := (lookup_eq_some (h.ascending ha)).2 ⟨h.self_mem, rfl⟩
  unbound name hne := by rw [← lookup_others es' hne, h.others, lookup_others es hne]
  order := h.others

/-- The sums of the bounds stay in an `int` as long as there are at most 2^30 entries. -/
theorem cacheNamePosLoop_total (h : Cache.Holds c es) (hn : es.length ≤ 2 ^ 30)
    (name : List Byte) (namelen : Nat) {fuel first last : Nat} (hle : last ≤ es.length) :
    ∃ pos, cacheNamePosLoop c.activeCache name namelen fuel first last = some pos := by
  induction fuel generalizing first last with
  | zero => exact ⟨_, rfl⟩
  | succ fuel ih =>
    rw [cacheNamePosLoop]
    by_cases hlt : last > first
    · have hnext : (last + first) / 2 < es.length := by omega
      rw [if_pos hlt, if_pos (by omega)]
      simp only [h.slot hnext]
      split
      · exact ⟨_, rfl⟩
      · split
        · exact ih (by omega)
        · exact ih hle
    · rw [if_neg hlt]
      exact ⟨_, rfl⟩

theorem cacheNamePos_total (h : Cache.Holds c es) (hn : es.length ≤ 2 ^ 30) (name : List Byte)
    (namelen : Nat) : ∃ pos, cacheNamePos c name namelen = some pos := by
  have hlast : (toInt c.activeNr).toNat = es.length := by
    rw [h.nr, toInt_of_lt h.length_lt, Int.toNat_natCast]
  rw [cacheNamePos, hlast]
  exact cacheNamePosLoop_total h hn name namelen (Nat.le_refl _)

theorem Cache.insertAt_total (h : Cache.Holds c es) (hk : k ≤ es.length)
    (hroom : c.activeNr < c.activeAlloc) (ce : CacheEntry) :
    ∃ c', c.insertAt k ce = some c' := by
  have hnr := h.nr
  have hlen := h.len
  have hal := h.alloc
  simp only [Cache.insertAt, Option.bind_eq_bind]
  rw [Nat.mod_eq_of_lt (by omega), if_pos (by omega), memmove, if_pos (by omega),
    Option.bind_some, store, if_pos]
  · exact ⟨_, rfl⟩
  · simp only [List.length_append, List.length_take, List.length_drop]
    omega

theorem addCacheEntry_total (h : Cache.Holds c es) (hn : es.length ≤ 2 ^ 30) (ce : CacheEntry) :
    ∃ c', addCacheEntry c ce = some c' := by
  obtain ⟨pos, hp⟩ := cacheNamePos_total h hn ce.name ce.namelen.toNat
  have hpos := cacheNamePos_spec h (Nat.le_of_lt ce.namelen_lt) hp
  have hnr := h.nr
  have hlen := h.len
  have hle := h.length_le
  rw [addCacheEntry, hp, Option.bind_eq_bind, Option.bind_some]
  cases hpos with
  | found l r e hp hes he =>
    have hk : l.length < es.length := by simp [hes]
    rw [if_pos (by omega), store, if_pos (by omega)]
    exact ⟨_, rfl⟩
  | absent l r hp hes hl hr =>
    have hk : l.length ≤ es.length := by simp [hes]
    rw [if_neg (by omega), show pos.toNat = l.length by omega]
    split
    · -- the array is full, and the new capacity does not wrap
      have hall : allocNr c.activeAlloc = (c.activeAlloc + 16) * 3 / 2 := allocNr_eq (by omega)
      refine Cache.insertAt_total (Cache.grow_holds h (by omega)) hk ?_ ce
      simp only [Cache.grow]
      omega
    · exact Cache.insertAt_total h hk (by omega) ce

theorem PosOf.neg_iff (h : PosOf es name pos) (ho : Ordered es) :
    pos < 0 ↔ ∃ e ∈ es, e.key = name := by
  cases h with
  | found l r e hp hes he =>
    constructor
    · intro _
      exact ⟨e, by simp [hes], he⟩
    · intro _
      omega
  | absent l r hp hes hl hr =>
    subst hes
    constructor
    · intro hneg
      omega
    · rintro ⟨e, he, hk⟩
      exact absurd hk (ho.absent hl hr e he)

/-- The slots that are stored into, or shifted up before, for a position of the search. -/
def SlotsInside (c : Cache) (pos : Int) : Prop :=
  if pos < 0 then (-pos - 1).toNat < c.activeAlloc
  else pos.toNat < c.activeAlloc ∧
    ∀ i < c.activeNr - pos.toNat - 1,
      pos.toNat + i < c.activeAlloc ∧ pos.toNat + 1 + i < c.activeAlloc

theorem PosOf.slotsInside (h : PosOf es name pos) (hle : es.length ≤ c.activeAlloc)
    (hlt : 0 ≤ pos → es.length < c.activeNr) (hal : c.activeNr ≤ c.activeAlloc) :
    SlotsInside c pos := by
  cases h with
  | found l r e hp hes he =>
    have hk : l.length < es.length := by simp [hes]
    rw [SlotsInside, if_pos (by omega)]
    omega
  | absent l r hp hes hl hr =>
    have hk : l.length ≤ es.length := by simp [hes]
    have hnr := hlt (by omega)
    rw [SlotsInside, if_neg (by omega)]
    refine ⟨by omega, ?_⟩
    intro i hi
    omega

/-- `add_cache_entry` binds the name of its entry and changes no other binding. -/
theorem add_updates (hc : c.Holds es) (ha : Ascending es) (hn : c.activeAlloc < 2 ^ 30)
    (ce : CacheEntry) : ∃ c' es' pos, addCacheEntry c ce = some c' ∧ c'.Holds es' ∧
      Updated es ce es' ∧
      c'.activeNr = (if lookup es ce.key = none then c.activeNr + 1 else c.activeNr) ∧
      c'.activeNr ≤ c'.activeAlloc ∧
      cacheNamePos c ce.name ce.namelen.toNat = some pos ∧ SlotsInside c' pos := by
  have hle := hc.length_le
  obtain ⟨c', hadd⟩ := addCacheEntry_total hc (by omega) ce
  obtain ⟨es', hc', hes'⟩ := addCacheEntry_spec hc hadd
  obtain ⟨pos, hp⟩ := cacheNamePos_total hc (by omega) ce.name ce.namelen.toNat
  have hpos := cacheNamePos_spec hc (Nat.le_of_lt ce.namelen_lt) hp
  have hlen := hes'.length ha
  have hle' := hc'.length_le
  have hnr : c'.activeNr =
      if lookup es ce.key = none then c.activeNr + 1 else c.activeNr := by
    rw [hc'.nr, hc.nr, hlen]
  have hal : c'.activeNr ≤ c'.activeAlloc := by
    rw [hc'.nr]
    exact hle'
  refine ⟨c', es', pos, hadd, hc', hes'.updated ha, hnr, hal, hp, ?_⟩
  refine hpos.slotsInside ?_ ?_ hal
  · split at hlen <;> omega
  · intro h0
    have hnone : lookup es ce.key = none := by
      rw [lookup_eq_none]
      intro e he hk
      have := (hpos.neg_iff ha.ordered).2 ⟨e, he, hk⟩
      omega
    rw [hnr, if_pos hnone, hc.nr]
    exact Nat.lt_succ_self _

def plainEntry (name : CStr) : CacheEntry := newEntry name (Stat.ofSize 1)

theorem add_updates_two : ∃ c₁ es₁ pos₁ c₂ es₂ pos₂,
    addCacheEntry (Cache.ofEntries [plainEntry (cstr "a"), plainEntry (cstr "c")])
      (plainEntry (cstr "b")) = some c₁ ∧ c₁.Holds es₁ ∧
    Updated [plainEntry (cstr "a"), plainEntry (cstr "c")] (plainEntry (cstr "b")) es₁ ∧
    cacheNamePos (Cache.ofEntries [plainEntry (cstr "a"), plainEntry (cstr "c")])
      (plainEntry (cstr "b")).name (plainEntry (cstr "b")).namelen.toNat = some pos₁ ∧
    SlotsInside c₁ pos₁ ∧
    addCacheEntry (Cache.ofEntries [plainEntry (cstr "a"), plainEntry (cstr "c")])
      (newEntry (cstr "a") (Stat.ofSize 2)) = some c₂ ∧ c₂.Holds es₂ ∧
    Updated [plainEntry (cstr "a"), plainEntry (cstr "c")] (newEntry (cstr "a") (Stat.ofSize 2))
      es₂ ∧
    cacheNamePos (Cache.ofEntries [plainEntry (cstr "a"), plainEntry (cstr "c")])
      (newEntry (cstr "a") (Stat.ofSize 2)).name
      (newEntry (cstr "a") (Stat.ofSize 2)).namelen.toNat = some pos₂ ∧ SlotsInside c₂ pos₂ := by
  have hc : (Cache.ofEntries [plainEntry (cstr "a"), plainEntry (cstr "c")]).Holds _ :=
    Cache.ofEntries_holds (by decide)
  have ha : Ascending [plainEntry (cstr "a"), plainEntry (cstr "c")] := by
    rw [ascending_iff]
    decide
  obtain ⟨c₁, es₁, pos₁, h₁, hes₁, hup₁, -, -, hp₁, hin₁⟩ :=
    add_updates hc ha (by decide) (plainEntry (cstr "b"))
  obtain ⟨c₂, es₂, pos₂, h₂, hes₂, hup₂, -, -, hp₂, hin₂⟩ :=
    add_updates hc ha (by decide) (newEntry (cstr "a") (Stat.ofSize 2))
  exact ⟨c₁, es₁, pos₁, c₂, es₂, pos₂, h₁, hes₁, hup₁, hp₁, hin₁, h₂, hes₂, hup₂, hp₂, hin₂⟩

end SelfGit
