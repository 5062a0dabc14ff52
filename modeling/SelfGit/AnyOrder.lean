import SelfGit.OrdinaryFiles

namespace SelfGit
open Foundation
set_option autoImplicit true

def withEntry (es : List CacheEntry) (ce : CacheEntry) : List CacheEntry :=
  es.filter (fun e => e.key < ce.key) ++ ce :: es.filter (fun e => ce.key < e.key)

def allocAfter (alloc : Nat) (es : List CacheEntry) (name : List Byte) : Nat :=
  if lookup es name = none ∧ es.length = alloc then allocNr alloc else alloc

/-- In each of the calls the sums stay in an `int`, and the array can grow where it has to. -/
def AddsFit : Nat → List CacheEntry → List CacheEntry → Prop
  | _, _, [] => True
  | alloc, es, ce :: l =>
    (SearchFits es ce.key ∧ (lookup es ce.key = none → es.length = alloc → alloc < 1431655750)) ∧
      AddsFit (allocAfter alloc es ce.key) (withEntry es ce) l

theorem Added.eq_withEntry (h : Added es ce es') (ha : Ascending es) : es' = withEntry es ce := by
  have hsplit : ∀ l r : List CacheEntry, (∀ e ∈ l, e.key < ce.key) → (∀ e ∈ r, ce.key < e.key) →
      (l ++ r).filter (fun e => e.key < ce.key) = l ∧
        (l ++ r).filter (fun e => ce.key < e.key) = r := by
    intro l r hl hr
    have hnot : ∀ {a b : List Byte}, a < b → ¬ b < a := fun hab hba =>
      List.lt_irrefl _ (List.lt_trans hab hba)
    constructor
    · rw [List.filter_append, List.filter_eq_self.2 fun e he => decide_eq_true (hl e he),
        List.filter_eq_nil_iff.2 fun e he => by simpa using hnot (hr e he), List.append_nil]
    · rw [List.filter_append, List.filter_eq_self.2 fun e he => decide_eq_true (hr e he),
        List.filter_eq_nil_iff.2 fun e he => by simpa using hnot (hl e he), List.nil_append]
  cases h with
  | replaced l r e hes he h' =>
    subst hes
    have hpair := ascending_iff.1 ha
    rw [List.pairwise_append, List.pairwise_cons] at hpair
    obtain ⟨-, ⟨hr, -⟩, hl⟩ := hpair
    obtain ⟨hbelow, habove⟩ := hsplit l r
      (fun f hf => he ▸ hl f hf e List.mem_cons_self) (fun f hf => he ▸ hr f hf)
    rw [List.filter_append] at hbelow habove
    have hself : ¬ e.key < ce.key ∧ ¬ ce.key < e.key := by
      rw [he]
      exact ⟨List.lt_irrefl _, List.lt_irrefl _⟩
    rw [h', withEntry, List.filter_append, List.filter_append,
      List.filter_cons_of_neg (by simpa using hself.1),
      List.filter_cons_of_neg (by simpa using hself.2), hbelow, habove]
  | inserted l r hes hl hr h' =>
    subst hes
    obtain ⟨hbelow, habove⟩ := hsplit l r
      ((ha.ordered.sublist (List.sublist_append_left l r)).all_lt hl)
      ((ha.ordered.sublist (List.sublist_append_right l r)).all_gt hr)
    rw [h', withEntry, hbelow, habove]

theorem insertAt_alloc (h : Cache.insertAt c k ce = some c') : c'.activeAlloc = c.activeAlloc := by
  simp only [Cache.insertAt, Option.bind_eq_bind, Option.bind_eq_some_iff] at h
  obtain ⟨xs, -, ys, -, h⟩ := h
  cases h
  rfl

theorem addCacheEntry_alloc (hc : c.Holds es) (ha : Ascending es)
    (h : addCacheEntry c ce = some c') :
    c'.activeAlloc = allocAfter c.activeAlloc es ce.key := by
  rw [addCacheEntry, Option.bind_eq_bind, Option.bind_eq_some_iff] at h
  obtain ⟨pos, hp, h⟩ := h
  have hpos := cacheNamePos_spec hc (Nat.le_of_lt ce.namelen_lt) hp
  have hnone : lookup es ce.key = none ↔ ¬ pos < 0 := by
    rw [hpos.neg_iff ha.ordered, lookup_eq_none]
    constructor
    · rintro hne ⟨e, he, hk⟩
      exact hne e he hk
    · intro hne e he hk
      exact hne ⟨e, he, hk⟩
  rw [allocAfter, ← hc.nr]
  split at h
  · rename_i hneg
    rw [Option.bind_eq_bind, Option.bind_eq_some_iff] at h
    obtain ⟨xs, -, h⟩ := h
    cases h
    rw [if_neg fun h0 => hnone.1 h0.1 hneg]
  · rename_i hneg
    rw [insertAt_alloc h]
    by_cases hfull : c.activeNr = c.activeAlloc
    · rw [if_pos hfull, if_pos ⟨hnone.2 hneg, hfull⟩]
      rfl
    · rw [if_neg hfull, if_neg fun h0 => hfull h0.2]

theorem adds_fit (hc : c.Holds es) (ha : Ascending es) (l : List CacheEntry) :
    (∃ c', l.foldlM addCacheEntry c = some c') ↔ AddsFit c.activeAlloc es l := by
  induction l generalizing c es with
  | nil => exact ⟨fun _ => trivial, fun _ => ⟨c, rfl⟩⟩
  | cons ce l ih =>
    have hfits : (∃ c₁, addCacheEntry c ce = some c₁) ↔ AddFits c es ce.key :=
      addCacheEntry_fits hc ha ce
    rw [AddsFit, ← AddFits.eq_def, ← hfits, List.foldlM_cons, Option.bind_eq_bind]
    have hrest : ∀ c₁, addCacheEntry c ce = some c₁ →
        ((∃ c', l.foldlM addCacheEntry c₁ = some c') ↔
          AddsFit (allocAfter c.activeAlloc es ce.key) (withEntry es ce) l) := by
      intro c₁ hadd
      obtain ⟨es₁, hc₁, h₁⟩ := addCacheEntry_spec hc hadd
      rw [ih hc₁ (h₁.ascending ha), addCacheEntry_alloc hc ha hadd, h₁.eq_withEntry ha]
    constructor
    · rintro ⟨c', h⟩
      obtain ⟨c₁, hadd, h⟩ := Option.bind_eq_some_iff.1 h
      exact ⟨⟨c₁, hadd⟩, (hrest c₁ hadd).1 ⟨c', h⟩⟩
    · rintro ⟨⟨c₁, hadd⟩, hl⟩
      obtain ⟨c', h⟩ := (hrest c₁ hadd).2 hl
      exact ⟨c', Option.bind_eq_some_iff.2 ⟨c₁, hadd, h⟩⟩

/-- Different names can be added in any order, and of one name only the last entry counts. -/
structure AddsAgree (c : Cache) (l : List CacheEntry) : Prop where
  orders : Distinct l → ∃ fs, ∀ l', l.Perm l' →
    ∃ c', l'.foldlM addCacheEntry c = some c' ∧ c'.Holds fs
  last : ∃ fs c₁ c₂, l.foldlM addCacheEntry c = some c₁ ∧ c₁.Holds fs ∧
    (lastWrites l).foldlM addCacheEntry c = some c₂ ∧ c₂.Holds fs

/-- The calls fit, in every order that is asked for. -/
structure OrdersFit (alloc : Nat) (es l : List CacheEntry) : Prop where
  orders : Distinct l → ∀ l', l.Perm l' → AddsFit alloc es l'
  list : AddsFit alloc es l
  last : AddsFit alloc es (lastWrites l)

theorem OrdersFit.of_le {c : Cache} (hc : c.Holds es) (ha : Ascending es) (hn : es.length + l.length ≤ 2 ^ 30) :
    OrdersFit c.activeAlloc es l where
  orders _ l' hp := (adds_fit hc ha l').1 (adds_total hc (hp.length_eq ▸ hn))
  list := (adds_fit hc ha l).1 (adds_total hc hn)
  last := (adds_fit hc ha _).1 (adds_total hc (by
    have := lastWrites_length l
    omega))

/-- The order of adding does not matter, and only the last entry of a name counts, if and only if
all the searches stay in the range of an `int` and the array can grow. -/
theorem adds_in_any_order (hc : c.Holds es) (ha : Ascending es) :
    (∀ l, AddsAgree c l ↔ OrdersFit c.activeAlloc es l) ∧
    (∀ l : List CacheEntry, es.length + l.length ≤ 2 ^ 30 → OrdersFit c.activeAlloc es l) ∧
    (∀ l l' c₁ c₂, Distinct l → l.Perm l' → l.foldlM addCacheEntry c = some c₁ →
      l'.foldlM addCacheEntry c = some c₂ → ∃ fs, c₁.Holds fs ∧ c₂.Holds fs) ∧
    ∀ l c₁ c₂, l.foldlM addCacheEntry c = some c₁ →
      (lastWrites l).foldlM addCacheEntry c = some c₂ → ∃ fs, c₁.Holds fs ∧ c₂.Holds fs := by
  have horder : ∀ l l' c₁ c₂, Distinct l → l.Perm l' → l.foldlM addCacheEntry c = some c₁ →
      l'.foldlM addCacheEntry c = some c₂ → ∃ fs, c₁.Holds fs ∧ c₂.Holds fs := by
    intro l l' c₁ c₂ hd hp h h'
    have hd' : Distinct l' := hp.pairwise hd fun hne => hne.symm
    refine adds_same hc ha ?_ h h'
    intro e
    rw [hd.lastWrites_eq, hd'.lastWrites_eq, hp.mem_iff]
  have hlast : ∀ l c₁ c₂, l.foldlM addCacheEntry c = some c₁ →
      (lastWrites l).foldlM addCacheEntry c = some c₂ → ∃ fs, c₁.Holds fs ∧ c₂.Holds fs := by
    intro l c₁ c₂ h h'
    refine adds_same hc ha ?_ h h'
    intro e
    rw [(lastWrites_distinct l).lastWrites_eq]
  refine ⟨fun l => ⟨fun h => ?_, fun h => ?_⟩, fun l hn => .of_le hc ha hn, horder, hlast⟩
  · obtain ⟨fs, c₁, c₂, h₁, -, h₂, -⟩ := h.last
    refine ⟨fun hd l' hp => (adds_fit hc ha l').1 ?_, (adds_fit hc ha l).1 ⟨c₁, h₁⟩,
      (adds_fit hc ha _).1 ⟨c₂, h₂⟩⟩
    obtain ⟨fs', hall⟩ := h.orders hd
    obtain ⟨c', hadds, -⟩ := hall l' hp
    exact ⟨c', hadds⟩
  · obtain ⟨c₁, h₁⟩ := (adds_fit hc ha l).2 h.list
    obtain ⟨c₂, h₂⟩ := (adds_fit hc ha _).2 h.last
    obtain ⟨fs, hfs₁, hfs₂⟩ := hlast l c₁ c₂ h₁ h₂
    refine ⟨fun hd => ⟨fs, fun l' hp => ?_⟩, fs, c₁, c₂, h₁, hfs₁, h₂, hfs₂⟩
    obtain ⟨c', h'⟩ := (adds_fit hc ha l').2 (h.orders hd l' hp)
    obtain ⟨fs', hfs, hfs'⟩ := horder l l' c₁ c' hd hp h₁ h'
    exact ⟨c', h', hfs₁.unique hfs ▸ hfs'⟩

theorem adds_in_any_order_two :
    AddsAgree (Cache.ofEntries [plainEntry (cstr "b"), plainEntry (cstr "d")])
      [plainEntry (cstr "c"), plainEntry (cstr "a")] ∧
    AddsAgree (Cache.ofEntries [plainEntry (cstr "b"), plainEntry (cstr "d")])
      [newEntry (cstr "c") (Stat.ofSize 2), plainEntry (cstr "a"), plainEntry (cstr "c")] := by
  have ha : Ascending [plainEntry (cstr "b"), plainEntry (cstr "d")] := by
    rw [ascending_iff]
    decide
  obtain ⟨hagree, hfits, -⟩ := adds_in_any_order (Cache.ofEntries_holds (by decide)) ha
  exact ⟨(hagree _).2 (hfits _ (by decide)), (hagree _).2 (hfits _ (by decide))⟩

/-- From the null array, 2^30 + 2 entries cannot be added one behind the other. -/
theorem adds_overflow : ¬ ∀ c es (l l' : List CacheEntry), Cache.Holds c es → Ascending es →
    c.activeAlloc < 2 ^ 30 → Distinct l → l.Perm l' → ∃ c₁ c₂ fs,
      l.foldlM addCacheEntry c = some c₁ ∧ l'.foldlM addCacheEntry c = some c₂ ∧
        c₁.Holds fs ∧ c₂.Holds fs := by
  intro hall
  obtain ⟨n, hn⟩ : ∃ n, n = 2 ^ 30 + 1 := ⟨_, rfl⟩
  have hasc : Ascending ((List.range (n + 1)).map numbered) := numbered_ascending (by omega)
  obtain ⟨c₁, -, -, h, -⟩ := hall Cache.null [] ((List.range (n + 1)).map numbered) _
    Cache.null_holds List.Pairwise.nil (by decide) hasc.distinct (List.Perm.refl _)
  rw [List.range_succ, List.map_append, List.foldlM_append, Option.bind_eq_bind,
    Option.bind_eq_some_iff] at h
  obtain ⟨cm, hm, h⟩ := h
  have hinit : Ascending ((List.range n).map numbered) := numbered_ascending (by omega)
  obtain ⟨es, hes, ha, hmem⟩ := adds_mem Cache.null_holds List.Pairwise.nil hm
  have hall' : es = (List.range n).map numbered := by
    apply ha.ext hinit
    intro e
    rw [hmem, hinit.distinct.lastWrites_eq]
    simp
  have hover : addCacheEntry cm (numbered n) = none := by
    apply add_behind_overflows hes
    · rw [hall', List.length_map, List.length_range]
      omega
    · intro e he
      rw [hall', List.mem_map] at he
      obtain ⟨i, hi, rfl⟩ := he
      rw [numbered_key, numbered_key]
      exact tally_lt (List.mem_range.1 hi) (by omega)
  rw [List.map_singleton, List.foldlM_cons, hover] at h
  cases h

end SelfGit
