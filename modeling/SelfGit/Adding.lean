import SelfGit.MapUpdate

namespace SelfGit
open Foundation
set_option autoImplicit true

theorem Added.mem_iff (h : Added es ce es') (ha : Ascending es) :
    e ∈ es' ↔ e = ce ∨ (e ∈ es ∧ e.key ≠ ce.key) := by
  constructor
  · intro he
    rcases h.mem he with rfl | hes
    · exact .inl rfl
    · by_cases hk : e.key = ce.key
      · exact .inl ((h.ascending ha).key_inj he h.self_mem hk)
      · exact .inr ⟨hes, hk⟩
  · rintro (rfl | ⟨he, hk⟩)
    · exact h.self_mem
    · exact h.keep he hk

/-- Of each name, the last entry only. -/
def lastWrites : List CacheEntry → List CacheEntry
  | [] => []
  | ce :: l => if ∃ f ∈ l, f.key = ce.key then lastWrites l else ce :: lastWrites l

theorem lastWrites_key (l : List CacheEntry) (name : List Byte) :
    (∃ f ∈ lastWrites l, f.key = name) ↔ ∃ f ∈ l, f.key = name := by
  induction l with
  | nil => exact Iff.rfl
  | cons ce l ih =>
    simp only [lastWrites, List.exists_mem_cons_iff]
    split
    · rename_i hex
      rw [ih]
      constructor
      · exact .inr
      · rintro (rfl | h)
        · exact hex
        · exact h
    · rw [List.exists_mem_cons_iff, ih]

/-- No two entries of one name. -/
def Distinct (l : List CacheEntry) : Prop := l.Pairwise fun a b => a.key ≠ b.key

theorem lastWrites_distinct (l : List CacheEntry) : Distinct (lastWrites l) := by
  induction l with
  | nil => exact List.Pairwise.nil
  | cons ce l ih =>
    rw [lastWrites]
    split
    · exact ih
    · rename_i hno
      rw [← lastWrites_key] at hno
      refine List.pairwise_cons.2 ⟨?_, ih⟩
      intro f hf hk
      exact hno ⟨f, hf, hk.symm⟩

theorem Distinct.lastWrites_eq (h : Distinct l) : lastWrites l = l := by
  induction l with
  | nil => rfl
  | cons ce l ih =>
    obtain ⟨hne, hl⟩ := List.pairwise_cons.1 h
    rw [lastWrites, if_neg, ih hl]
    rintro ⟨f, hf, hk⟩
    exact hne f hf hk.symm

theorem lastWrites_length (l : List CacheEntry) : (lastWrites l).length ≤ l.length := by
  induction l with
  | nil => exact Nat.le_refl _
  | cons ce l ih =>
    rw [lastWrites]
    split
    · exact Nat.le_succ_of_le ih
    · exact Nat.succ_le_succ ih

theorem adds_mem (hc : Cache.Holds c es) (ha : Ascending es)
    (h : l.foldlM addCacheEntry c = some c') : ∃ es', c'.Holds es' ∧ Ascending es' ∧
      ∀ e, e ∈ es' ↔ e ∈ lastWrites l ∨ (e ∈ es ∧ ¬ ∃ f ∈ l, f.key = e.key) := by
  induction l generalizing c es with
  | nil =>
    cases h
    exact ⟨es, hc, ha, fun e => by simp [lastWrites]⟩
  | cons ce l ih =>
    rw [List.foldlM_cons, Option.bind_eq_bind, Option.bind_eq_some_iff] at h
    obtain ⟨c₁, hadd, h⟩ := h
    obtain ⟨es₁, hc₁, h₁⟩ := addCacheEntry_spec hc hadd
    obtain ⟨es', hc', ha', hmem⟩ := ih hc₁ (h₁.ascending ha) h
    refine ⟨es', hc', ha', ?_⟩
    intro e
    rw [hmem, h₁.mem_iff ha, lastWrites]
    simp only [List.exists_mem_cons_iff]
    split
    · rename_i hex
      grind
    · rename_i hno
      grind

theorem adds_total {l : List CacheEntry} (hc : Cache.Holds c es)
    (hn : es.length + l.length ≤ 2 ^ 30) : ∃ c', l.foldlM addCacheEntry c = some c' := by
  induction l generalizing c es with
  | nil => exact ⟨c, rfl⟩
  | cons ce l ih =>
    rw [List.length_cons] at hn
    obtain ⟨c₁, hadd⟩ := addCacheEntry_total hc (by omega) ce
    obtain ⟨es₁, hc₁, h₁⟩ := addCacheEntry_spec hc hadd
    rw [List.foldlM_cons, hadd, Option.bind_eq_bind, Option.bind_some]
    refine ih hc₁ ?_
    cases h₁ with
    | replaced l' r e hes he h' =>
      subst hes h'
      simp only [List.length_append, List.length_cons] at hn ⊢
      omega
    | inserted l' r hes hl hr h' =>
      subst hes h'
      simp only [List.length_append, List.length_cons] at hn ⊢
      omega

theorem adds_same (hc : Cache.Holds c es) (ha : Ascending es)
    (hm : ∀ e, e ∈ lastWrites l ↔ e ∈ lastWrites l') (h : l.foldlM addCacheEntry c = some c₁)
    (h' : l'.foldlM addCacheEntry c = some c₂) : ∃ fs, c₁.Holds fs ∧ c₂.Holds fs := by
  obtain ⟨fs, hc₁, ha₁, hmem⟩ := adds_mem hc ha h
  obtain ⟨fs', hc₂, ha₂, hmem'⟩ := adds_mem hc ha h'
  have hfs : fs = fs' := by
    apply ha₁.ext ha₂
    intro e
    rw [hmem, hmem', hm, ← lastWrites_key l, ← lastWrites_key l']
    simp only [hm]
  subst hfs
  exact ⟨fs, hc₁, hc₂⟩

/-- A position the search has come to from below is one whose predecessor it has looked at. -/
theorem cacheNamePosLoop_le (hp : cacheNamePosLoop slots name namelen fuel first last = some pos)
    (hlt : first < pos) : pos ≤ 2 ^ 30 := by
  induction fuel generalizing first last with
  | zero =>
    have := Option.some.inj hp
    omega
  | succ fuel ih =>
    rw [cacheNamePosLoop] at hp
    split at hp
    · split at hp
      · simp only at hp
        split at hp
        · split at hp
          · have := Option.some.inj hp
            omega
          · split at hp
            · exact ih hp hlt
            · by_cases hnext : (((last + first) / 2 + 1 : Nat) : Int) < pos
              · exact ih hp hnext
              · omega
        · cases hp
      · cases hp
    · have := Option.some.inj hp
      omega

theorem search_behind_overflows (hc : Cache.Holds c es) (hn : 2 ^ 30 < es.length)
    {name : List Byte} (hl : namelen ≤ name.length) (hlt : ∀ e ∈ es, e.key < name.take namelen) :
    cacheNamePos c name namelen = none := by
  cases hp : cacheNamePos c name namelen with
  | none => rfl
  | some pos =>
    cases cacheNamePos_spec hc hl hp with
    | found l r e hp hes he =>
      have hself := hlt e (by rw [hes]; simp)
      rw [he] at hself
      exact absurd hself (List.lt_irrefl _)
    | absent l r hpl hes hl hr =>
      have hr : r = [] := by
        cases r with
        | nil => rfl
        | cons f r =>
          have hf := hlt f (by rw [hes]; simp)
          exact absurd (List.lt_trans hf (hr f rfl)) (List.lt_irrefl _)
      have hlen : es.length = l.length := by rw [hes, hr, List.append_nil]
      have := cacheNamePosLoop_le hp (by omega)
      omega

theorem add_behind_overflows (hc : Cache.Holds c es) (hn : 2 ^ 30 < es.length)
    (hlt : ∀ e ∈ es, e.key < ce.key) : addCacheEntry c ce = none := by
  have hp := search_behind_overflows hc hn (Nat.le_of_lt ce.namelen_lt) hlt
  rw [addCacheEntry, hp, Option.bind_eq_bind, Option.bind_none]

def tally : Nat → Nat → List Byte
  | 0, _ => []
  | k + 1, i => UInt8.ofNat (1 + i / 64 ^ k % 64) :: tally k (i % 64 ^ k)

theorem tally_length (k i : Nat) : (tally k i).length = k := by
  induction k generalizing i with
  | zero => rfl
  | succ k ih => simp only [tally, List.length_cons, ih]

theorem tally_no_nul (k i : Nat) : 0 ∉ tally k i := by
  induction k generalizing i with
  | zero => simp [tally]
  | succ k ih =>
    rw [tally, List.mem_cons, not_or]
    refine ⟨?_, ih _⟩
    intro h
    have h0 := congrArg UInt8.toNat h
    rw [UInt8.toNat_ofNat'] at h0
    simp only [UInt8.reduceToNat] at h0
    omega

theorem tally_lt (hij : i < j) (hj : j < 64 ^ k) : tally k i < tally k j := by
  induction k generalizing i j with
  | zero => omega
  | succ k ih =>
    have hpos : 0 < 64 ^ k := Nat.pow_pos (by decide)
    have hjd : j / 64 ^ k < 64 := Nat.div_lt_of_lt_mul (by rwa [Nat.pow_succ] at hj)
    have hle : i / 64 ^ k ≤ j / 64 ^ k := Nat.div_le_div_right (Nat.le_of_lt hij)
    rw [tally, tally, Nat.mod_eq_of_lt hjd, Nat.mod_eq_of_lt (Nat.lt_of_le_of_lt hle hjd),
      List.cons_lt_cons_iff]
    rcases Nat.lt_or_eq_of_le hle with hlt | heq
    · apply Or.inl
      rw [UInt8.lt_iff_toNat_lt, UInt8.toNat_ofNat', UInt8.toNat_ofNat',
        Nat.mod_eq_of_lt (by omega), Nat.mod_eq_of_lt (by omega)]
      exact Nat.add_lt_add_left hlt 1
    · refine .inr ⟨by rw [heq], ih ?_ (Nat.mod_lt _ hpos)⟩
      have hi := Nat.div_add_mod i (64 ^ k)
      have hj' := Nat.div_add_mod j (64 ^ k)
      rw [heq] at hi
      omega

def numbered (i : Nat) : CacheEntry := plainEntry ⟨tally 6 i, tally_no_nul 6 i⟩

theorem numbered_key (i : Nat) : (numbered i).key = tally 6 i := by
  have hl : (tally 6 i).length < 2 ^ 16 := by
    rw [tally_length]
    decide
  exact newEntry_key (p := ⟨tally 6 i, tally_no_nul 6 i⟩) hl

theorem numbered_ascending (hn : n ≤ 64 ^ 6) : Ascending ((List.range n).map numbered) := by
  rw [ascending_iff, List.pairwise_map]
  refine List.pairwise_lt_range.imp_of_mem ?_
  intro i j _ hj hij
  rw [numbered_key, numbered_key]
  exact tally_lt hij (Nat.lt_of_lt_of_le (List.mem_range.1 hj) hn)

theorem Ascending.distinct (h : Ascending es) : Distinct es := by
  rw [ascending_iff] at h
  refine h.imp ?_
  intro a b hlt he
  rw [he] at hlt
  exact List.lt_irrefl _ hlt

end SelfGit
