import SelfGit.CacheEdits

namespace SelfGit
open Foundation
set_option autoImplicit true

/-- The order the index is kept in: names strictly ascending, hence unique. -/
def Ascending (es : List CacheEntry) : Prop :=
  es.Pairwise fun a b =>
    cacheNameCompare a.name a.namelen.toNat b.name b.namelen.toNat < 0

theorem compare_lt_iff (a b : CacheEntry) :
    cacheNameCompare a.name a.namelen.toNat b.name b.namelen.toNat < 0 ↔ a.key < b.key :=
  cacheNameCompare_lt (Nat.le_of_lt a.namelen_lt) (Nat.le_of_lt b.namelen_lt)

theorem ascending_iff : Ascending es ↔ es.Pairwise fun a b => a.key < b.key := by
  simp only [Ascending, compare_lt_iff]

theorem Ascending.sublist (h : Ascending es) (hs : es'.Sublist es) : Ascending es' :=
  List.Pairwise.sublist hs h

/-- Names in order, but possibly repeated, as a deletion leaves them. -/
def Ordered (es : List CacheEntry) : Prop := es.Pairwise fun a b => ¬ b.key < a.key

theorem Ascending.ordered (h : Ascending es) : Ordered es := by
  rw [ascending_iff] at h
  refine h.imp ?_
  intro a b hab hba
  exact List.lt_irrefl _ (List.lt_trans hab hba)

theorem Ordered.sublist (h : Ordered es) (hs : es'.Sublist es) : Ordered es' :=
  List.Pairwise.sublist hs h

theorem lt_of_lt_of_not_gt {a b c : List Byte} (hab : a < b) (hbc : ¬ c < b) : a < c := by
  by_cases he : c = b
  · rwa [he]
  · exact List.lt_trans hab (lt_of_not_compare he hbc)

theorem Ordered.all_lt {l : List CacheEntry} (h : Ordered l)
    (hl : ∀ e ∈ l.getLast?, e.key < name) : ∀ e ∈ l, e.key < name := by
  intro e he
  obtain ⟨init, last, rfl⟩ := List.eq_nil_or_concat l |>.resolve_left (List.ne_nil_of_mem he)
  rw [List.concat_eq_append] at h he hl
  have hlast : last.key < name := hl last (by simp)
  rcases List.mem_append.1 he with hi | hi
  · exact List.lt_of_le_of_lt ((List.pairwise_append.1 h).2.2 e hi last (by simp)) hlast
  · rw [List.mem_singleton] at hi
    subst e
    exact hlast

theorem Ordered.all_gt {r : List CacheEntry} (h : Ordered r)
    (hr : ∀ e ∈ r.head?, name < e.key) : ∀ e ∈ r, name < e.key := by
  cases r with
  | nil => simp
  | cons f r =>
    have hf : name < f.key := hr f rfl
    intro e he
    rcases List.mem_cons.1 he with rfl | he
    · exact hf
    · exact lt_of_lt_of_not_gt hf ((List.pairwise_cons.1 h).1 e he)

theorem Added.ascending (h : Added es ce es') (ha : Ascending es) : Ascending es' := by
  cases h with
  | replaced l r e hes he h' =>
    subst hes h'
    rw [ascending_iff, List.pairwise_append, List.pairwise_cons] at ha ⊢
    simp only [List.mem_cons, forall_eq_or_imp, he] at ha ⊢
    exact ha
  | inserted l r hes hl hr h' =>
    subst hes h'
    have hal := (ha.ordered.sublist (List.sublist_append_left l r)).all_lt hl
    have har := (ha.ordered.sublist (List.sublist_append_right l r)).all_gt hr
    rw [ascending_iff, List.pairwise_append] at ha
    rw [ascending_iff, List.pairwise_append, List.pairwise_cons]
    refine ⟨ha.1, ⟨har, ha.2.1⟩, ?_⟩
    intro a hm b hb
    rcases List.mem_cons.1 hb with rfl | hb
    · exact hal a hm
    · exact ha.2.2 a hm b hb

theorem dropSlot_near_end (hk : k < es.length) (hn : es.length ≤ k + 2) :
    dropSlot es k = es.take (es.length - 1) := by
  rw [dropSlot]
  split
  · have hkl : es.length = k + 2 := by omega
    rw [hkl, show k + 2 - k - 2 = 0 by omega, show k + 2 - 2 = k by omega, List.take_zero,
      List.append_nil, ← List.take_add]
    rfl
  · have hkl : k = es.length - 1 := by omega
    rw [hkl]

theorem Removed.ascending (h : Removed es path es') (ha : Ascending es)
    (hn : ∀ l r e, es = l ++ e :: r → e.key = path → r.length ≤ 1) : Ascending es' := by
  cases h with
  | found l r e hes he h' =>
    have hr := hn l r e hes he
    have hlen : es.length = l.length + r.length + 1 := by
      rw [hes, List.length_append, List.length_cons]
      omega
    rw [h', dropSlot_near_end (by omega) (by omega)]
    exact ha.sublist (List.take_sublist _ _)
  | absent l r hes hl hr h' => exact h' ▸ ha

theorem Added.self_mem (h : Added es ce es') : ce ∈ es' := by
  cases h with
  | replaced l r e hes he h' => simp [h']
  | inserted l r hes hl hr h' => simp [h']

theorem Added.mem (h : Added es ce es') (he : e ∈ es') : e = ce ∨ e ∈ es := by
  cases h with
  | replaced l r f hes hf h' =>
    subst hes h'
    simp only [List.mem_append, List.mem_cons] at he ⊢
    tauto
  | inserted l r hes hl hr h' =>
    subst hes h'
    simp only [List.mem_append, List.mem_cons] at he ⊢
    tauto

theorem Added.keep (h : Added es ce es') (he : e ∈ es) (hne : e.key ≠ ce.key) : e ∈ es' := by
  cases h with
  | replaced l r f hes hf h' =>
    subst hes h'
    simp only [List.mem_append, List.mem_cons] at he ⊢
    rcases he with he | rfl | he
    · exact .inl he
    · exact absurd hf hne
    · exact .inr (.inr he)
  | inserted l r hes hl hr h' =>
    subst hes h'
    simp only [List.mem_append, List.mem_cons] at he ⊢
    tauto

theorem dropSlot_mem (he : e ∈ dropSlot es k) : e ∈ es := by
  rw [dropSlot] at he
  split at he
  · simp only [List.mem_append] at he
    rcases he with (he | he) | he
    · exact List.mem_of_mem_take he
    · exact List.mem_of_mem_drop (List.mem_of_mem_take he)
    · exact List.mem_of_mem_drop (List.mem_of_mem_take he)
  · exact List.mem_of_mem_take he

theorem Removed.mem (h : Removed es path es') (he : e ∈ es') : e ∈ es := by
  cases h with
  | found l r f hes hf h' => exact dropSlot_mem (h' ▸ he)
  | absent l r hes hl hr h' => exact h' ▸ he

theorem Removed.keep (h : Removed es path es') (he : e ∈ es) (hne : e.key ≠ path)
    (hn : ∀ l r e, es = l ++ e :: r → e.key = path → r = []) : e ∈ es' := by
  cases h with
  | found l r f hes hf h' =>
    have hr := hn l r f hes hf
    subst hr hes h'
    rw [dropSlot, if_neg (by simp), List.take_left]
    simp only [List.mem_append, List.mem_singleton] at he
    rcases he with he | rfl
    · exact he
    · exact absurd hf hne
  | absent l r hes hl hr h' => exact h' ▸ he

end SelfGit
