import SelfGit.Lookup

namespace SelfGit
open Foundation
set_option autoImplicit true

/-- The `while` loop of `cache_name_pos` and its result, with the slots read on the way. -/
inductive Search (slots : List (Option CacheEntry)) (name : List Byte) (namelen : Nat) :
    Nat → Nat → List Nat → Int → Prop
  | done (h : ¬ first < last) : Search slots name namelen first last [] first
  | hit (h : first < last) (hsum : last + first < 2 ^ 31)
      (hslot : slots[(last + first) / 2]? = some (some ce))
      (hcmp : cacheNameCompare name namelen ce.name ce.namelen.toNat = 0) :
      Search slots name namelen first last [(last + first) / 2] (-((last + first) / 2 : Nat) - 1)
  | left (h : first < last) (hsum : last + first < 2 ^ 31)
      (hslot : slots[(last + first) / 2]? = some (some ce))
      (hcmp : cacheNameCompare name namelen ce.name ce.namelen.toNat < 0)
      (hrest : Search slots name namelen first ((last + first) / 2) reads pos) :
      Search slots name namelen first last ((last + first) / 2 :: reads) pos
  | right (h : first < last) (hsum : last + first < 2 ^ 31)
      (hslot : slots[(last + first) / 2]? = some (some ce))
      (hcmp : 0 < cacheNameCompare name namelen ce.name ce.namelen.toNat)
      (hrest : Search slots name namelen ((last + first) / 2 + 1) last reads pos) :
      Search slots name namelen first last ((last + first) / 2 :: reads) pos

section Loop
variable {slots : List (Option CacheEntry)} {name : List Byte} {namelen first last : Nat}

/-- A loop that ends does so within as many turns as there are slots between its bounds. -/
theorem Search.loop (h : Search slots name namelen first last reads pos)
    (hf : last ≤ first + fuel) :
    cacheNamePosLoop slots name namelen fuel first last = some pos := by
  induction h generalizing fuel with
  | done h =>
    cases fuel with
    | zero => rfl
    | succ fuel => rw [cacheNamePosLoop, if_neg h]
  | hit h hsum hslot hcmp =>
    obtain ⟨fuel, rfl⟩ : ∃ k, fuel = k + 1 := ⟨fuel - 1, by omega⟩
    simp only [cacheNamePosLoop, if_pos h, if_pos hsum, hslot, if_pos hcmp]
  | left h hsum hslot hcmp hrest ih =>
    obtain ⟨fuel, rfl⟩ : ∃ k, fuel = k + 1 := ⟨fuel - 1, by omega⟩
    simp only [cacheNamePosLoop, if_pos h, if_pos hsum, hslot, if_neg (Int.ne_of_lt hcmp),
      if_pos hcmp]
    exact ih (by omega)
  | right h hsum hslot hcmp hrest ih =>
    obtain ⟨fuel, rfl⟩ : ∃ k, fuel = k + 1 := ⟨fuel - 1, by omega⟩
    simp only [cacheNamePosLoop, if_pos h, if_pos hsum, hslot, if_neg (Int.ne_of_gt hcmp),
      if_neg (Int.not_lt.2 (Int.le_of_lt hcmp))]
    exact ih (by omega)

/-- What lies behind the slots is not looked at. -/
theorem Search.extend (h : Search slots name namelen first last reads pos)
    (rest : List (Option CacheEntry)) :
    Search (slots ++ rest) name namelen first last reads pos := by
  have hmore : ∀ {i : Nat} {ce : CacheEntry}, slots[i]? = some (some ce) →
      (slots ++ rest)[i]? = some (some ce) := by
    intro i ce hi
    obtain ⟨hlt, -⟩ := List.getElem?_eq_some_iff.1 hi
    rw [List.getElem?_append_left hlt, hi]
  induction h with
  | done h => exact .done h
  | hit h hsum hslot hcmp => exact .hit h hsum (hmore hslot) hcmp
  | left h hsum hslot hcmp _ ih => exact .left h hsum (hmore hslot) hcmp ih
  | right h hsum hslot hcmp _ ih => exact .right h hsum (hmore hslot) hcmp ih

/-- On fewer than 2^30 entries the loop ends, and reads only between its bounds. -/
theorem search_ends {es : List CacheEntry} (hlt : es.length < 2 ^ 30) (name : List Byte)
    (namelen first last : Nat) (hle : last ≤ es.length) :
    ∃ reads pos, Search (es.map some) name namelen first last reads pos ∧
      ∀ i ∈ reads, i < last := by
  by_cases h : first < last
  · have hnext : (last + first) / 2 < es.length := by omega
    have hslot : (es.map some)[(last + first) / 2]? = some (some es[(last + first) / 2]) := by
      rw [List.getElem?_map, List.getElem?_eq_getElem hnext]
      rfl
    have hsum : last + first < 2 ^ 31 := by omega
    rcases Int.lt_trichotomy (cacheNameCompare name namelen es[(last + first) / 2].name
      es[(last + first) / 2].namelen.toNat) 0 with hcmp | hcmp | hcmp
    · obtain ⟨reads, pos, hs, hin⟩ := search_ends hlt name namelen first
        ((last + first) / 2) (by omega)
      refine ⟨_, _, .left h hsum hslot hcmp hs, List.forall_mem_cons.2 ⟨by omega, ?_⟩⟩
      intro i hi
      exact Nat.lt_trans (hin i hi) (by omega)
    · exact ⟨_, _, .hit h hsum hslot hcmp, List.forall_mem_cons.2 ⟨by omega, by simp⟩⟩
    · obtain ⟨reads, pos, hs, hin⟩ := search_ends hlt name namelen
        ((last + first) / 2 + 1) last hle
      exact ⟨_, _, .right h hsum hslot hcmp hs, List.forall_mem_cons.2 ⟨by omega, hin⟩⟩
  · exact ⟨[], first, .done h, by simp⟩
termination_by last - first

end Loop

/-- All entries before the place are smaller than the name and all from there on are greater. -/
structure Between (es : List CacheEntry) (name : List Byte) (k : Nat) : Prop where
  le : k ≤ es.length
  before : ∀ i e, i < k → es[i]? = some e → e.key < name
  behind : ∀ i e, k ≤ i → es[i]? = some e → name < e.key

theorem Between.unique (h : Between es name k) (h' : Between es name k') : k' = k := by
  have hle : ∀ {i j : Nat}, Between es name i → Between es name j → i ≤ j := by
    intro i j hi hj
    by_contra hlt
    have hj' : j < es.length := Nat.lt_of_lt_of_le (Nat.lt_of_not_le hlt) hi.le
    have hs := List.getElem?_eq_getElem hj'
    exact List.lt_irrefl _ (List.lt_trans (hi.before j _ (Nat.lt_of_not_le hlt) hs)
      (hj.behind j _ (Nat.le_refl _) hs))
  exact Nat.le_antisymm (hle h' h) (hle h h')

/-- What a result of the search says about the entries. -/
structure Exact (es : List CacheEntry) (name : List Byte) (pos : Int) : Prop where
  found : (∃ e ∈ es, e.key = name) →
    ∃ (k : Nat) (e : CacheEntry), es[k]? = some e ∧ e.key = name ∧ pos = -k - 1
  absent : (∀ e ∈ es, e.key ≠ name) →
    ∃ k : Nat, pos = k ∧ Between es name k ∧ ∀ k', Between es name k' → k' = k

theorem PosOf.exact (h : PosOf es name pos) (ho : Ordered es) : Exact es name pos := by
  cases h with
  | found l r e hp hes he =>
    subst hes
    have hat : (l ++ e :: r)[l.length]? = some e := by
      rw [List.getElem?_append_right (Nat.le_refl _), Nat.sub_self]
      rfl
    refine ⟨fun _ => ⟨l.length, e, hat, he, hp⟩, ?_⟩
    intro hne
    exact absurd he (hne e (List.mem_of_getElem? hat))
  | absent l r hp hes hl hr =>
    subst hes
    have hnone := ho.absent hl hr
    have hbetween : Between (l ++ r) name l.length := by
      refine ⟨by rw [List.length_append]; omega, ?_, ?_⟩
      · intro i e hi hs
        rw [List.getElem?_append_left hi] at hs
        exact (ho.sublist (List.sublist_append_left l r)).all_lt hl e (List.mem_of_getElem? hs)
      · intro i e hi hs
        rw [List.getElem?_append_right hi] at hs
        exact (ho.sublist (List.sublist_append_right l r)).all_gt hr e (List.mem_of_getElem? hs)
    refine ⟨?_, fun _ => ⟨l.length, hp, hbetween, fun k' h' => hbetween.unique h'⟩⟩
    rintro ⟨e, hmem, he⟩
    exact absurd he (hnone e hmem)

/-- The sign of `cache_name_compare` is that of the lexicographic order. -/
structure ComparesBytes (name1 : List Byte) (len1 : Nat) (name2 : List Byte) (len2 : Nat) :
    Prop where
  lt : cacheNameCompare name1 len1 name2 len2 < 0 ↔ name1.take len1 < name2.take len2
  eq : cacheNameCompare name1 len1 name2 len2 = 0 ↔ name1.take len1 = name2.take len2
  gt : 0 < cacheNameCompare name1 len1 name2 len2 ↔ name2.take len2 < name1.take len1

theorem comparesBytes {name1 name2 : List Byte} (h1 : len1 ≤ name1.length)
    (h2 : len2 ≤ name2.length) : ComparesBytes name1 len1 name2 len2 := by
  have hlt := cacheNameCompare_lt h1 h2
  have heq := cacheNameCompare_eq h1 h2
  refine ⟨hlt, heq, ?_⟩
  constructor
  · intro h
    apply lt_of_not_compare
    · intro he
      exact Int.ne_of_gt h (heq.2 he)
    · intro hba
      exact absurd (hlt.2 hba) (Int.not_lt.2 (Int.le_of_lt h))
  · intro h
    rcases Int.lt_trichotomy (cacheNameCompare name1 len1 name2 len2) 0 with hc | hc | hc
    · exact absurd (List.lt_trans h (hlt.1 hc)) (List.lt_irrefl _)
    · rw [heq.1 hc] at h
      exact absurd h (List.lt_irrefl _)
    · exact hc

/-- The search of either file ends with one result, for which only their slots are read. -/
structure Finds (c : Cache) (es : List CacheEntry) (name : List Byte) (namelen : Nat) (pos : Int) :
    Prop where
  exact : Exact es (name.take namelen) pos
  reads : ∃ reads, Search c.activeCache name namelen 0 es.length reads pos ∧
    ∀ i ∈ reads, i < c.activeNr
  update : cacheNamePos c name namelen = some pos
  remove : ∀ L c₀, ∃ k : Int × Cache → Proc (Int × Cache),
    Remove.cacheNamePos L c₀ name namelen = readCache L c₀ >>= k ∧
      ∀ n, k (n, c) = if n < 0 then pure (-1, c) else pure (pos, c)

/-- On fewer than 2^30 entries in order, whatever is behind them in the array, the binary search is
exact, and the comparison it rests on is the order of the names. -/
theorem binary_search_exact {c : Cache} {es : List CacheEntry}
    (hslots : c.activeCache.take es.length = es.map some) (hnr : c.activeNr = es.length)
    (hlt : es.length < 2 ^ 30) (ho : Ordered es) {name : List Byte}
    (hn : namelen ≤ name.length) : (∃ pos, Finds c es name namelen pos) ∧
      ∀ (name1 name2 : List Byte) (len1 len2 : Nat), len1 ≤ name1.length → len2 ≤ name2.length →
        ComparesBytes name1 len1 name2 len2 := by
  refine ⟨?_, fun name1 name2 len1 len2 => comparesBytes⟩
  obtain ⟨reads, pos, hs, hin⟩ := search_ends hlt name namelen 0 es.length (Nat.le_refl _)
  have hsearch := hs.extend (c.activeCache.drop es.length)
  rw [← hslots, List.take_append_drop] at hsearch
  -- the array that ends with the entries
  have hexact : Exact es (name.take namelen) pos := by
    have hholds : Cache.Holds ⟨es.map some, es.length, es.length⟩ es :=
      ⟨rfl, List.length_map .., by dsimp only; omega, [], (List.append_nil _).symm⟩
    have hloop : cacheNamePosLoop (es.map some) name namelen es.length 0 es.length = some pos :=
      hs.loop (by omega)
    apply PosOf.exact _ ho
    refine cacheNamePosLoop_spec hholds hn (by omega) (Nat.zero_le _) (Nat.le_refl _) ?_ ?_ hloop
    · intro e h0
      omega
    · intro e he
      simp at he
  have hpos : cacheNamePos c name namelen = some pos := by
    have hlast : (toInt c.activeNr).toNat = es.length := by
      rw [hnr, toInt_of_lt (by omega), Int.toNat_natCast]
    rw [cacheNamePos, hlast]
    exact hsearch.loop (by omega)
  refine ⟨pos, hexact, ⟨reads, hsearch, by rw [hnr]; exact hin⟩, hpos, ?_⟩
  intro L c₀
  refine ⟨_, rfl, ?_⟩
  intro n
  dsimp only
  split
  · rfl
  · rw [hpos]
    rfl

theorem binary_search_exact_three : ∃ pos,
    Finds ⟨[some (sampleEntry "a" 120), some (sampleEntry "c" 120), some (sampleEntry "e" 120),
      some (sampleEntry "b" 120)], 3, 4⟩
      [sampleEntry "a" 120, sampleEntry "c" 120, sampleEntry "e" 120] (str "d") 1 pos := by
  have ho : Ordered [sampleEntry "a" 120, sampleEntry "c" 120, sampleEntry "e" 120] := by
    rw [Ordered]
    decide
  exact (binary_search_exact rfl rfl (by decide) ho (by decide)).1

end SelfGit
