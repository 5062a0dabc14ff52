import SelfGit.Commit
import SelfGit.ObjectNames

namespace SelfGit
open Foundation
set_option autoImplicit true

/-- The characters that `remove_special` takes out. -/
def isSpecial (c : Byte) : Bool := c = 10 || c = 60 || c = 62

def clean (s : List Byte) : List Byte := s.filter fun c => !isSpecial c

theorem isSpecial_iff : isSpecial c = true ↔ c = 10 ∨ c = 60 ∨ c = 62 := by
  simp [isSpecial, or_assoc]

theorem clean_no_special (s : List Byte) : ∀ c ∈ clean s, isSpecial c = false := by
  intro c hc
  simpa using (List.mem_filter.1 hc).2

theorem clean_no_nul (hs : 0 ∉ s) : 0 ∉ clean s := fun h => hs (List.mem_filter.1 h).1

/-- In place: what is kept so far, the gap behind it, and what is still to be read. -/
theorem removeSpecialLoop_eq (kept gap todo tail : List Byte) (h0 : 0 ∉ todo)
    (hf : todo.length < n) : ∃ rest,
      removeSpecialLoop n (kept ++ gap ++ todo ++ 0 :: tail) (kept.length + gap.length)
        kept.length = some (kept ++ clean todo ++ 0 :: rest) := by
  induction todo generalizing kept gap n with
  | nil =>
    obtain ⟨fuel, rfl⟩ : ∃ k, n = k + 1 := ⟨n - 1, by simp at hf; omega⟩
    have hget : (kept ++ gap ++ [] ++ 0 :: tail)[kept.length + gap.length]? = some 0 := by
      rw [List.append_nil, ← List.length_append, List.getElem?_append_right (Nat.le_refl _)]
      simp
    rw [removeSpecialLoop, hget]
    simp only [show ¬ ((0 : Byte) = 10 ∨ (0 : Byte) = 60 ∨ (0 : Byte) = 62) by decide, ↓reduceIte]
    cases gap with
    | nil => exact ⟨tail, by simp [clean]⟩
    | cons g gap => exact ⟨gap ++ 0 :: tail, by simp [clean]⟩
  | cons c todo ih =>
    obtain ⟨fuel, rfl⟩ : ∃ k, n = k + 1 := ⟨n - 1, by simp at hf; omega⟩
    rw [List.length_cons] at hf
    rw [List.mem_cons, not_or] at h0
    have hget : (kept ++ gap ++ c :: todo ++ 0 :: tail)[kept.length + gap.length]? = some c := by
      rw [List.append_assoc, ← List.length_append, List.getElem?_append_right (Nat.le_refl _)]
      simp
    rw [removeSpecialLoop, hget]
    simp only
    by_cases hc : c = 10 ∨ c = 60 ∨ c = 62
    · obtain ⟨rest, hrest⟩ := ih kept (gap ++ [c]) (n := fuel) h0.2 (by omega)
      refine ⟨rest, ?_⟩
      rw [if_pos hc, clean, List.filter_cons_of_neg (by simpa [isSpecial_iff] using hc)]
      rw [← clean, ← hrest]
      simp [Nat.add_assoc]
    · have hkeep : clean (c :: todo) = c :: clean todo := by
        rw [clean, List.filter_cons_of_pos, ← clean]
        rw [Bool.not_eq_true', ← Bool.not_eq_true, isSpecial_iff]
        exact hc
      rw [if_neg hc, if_neg (Ne.symm h0.1), hkeep]
      cases gap with
      | nil =>
        obtain ⟨rest, hrest⟩ := ih (kept ++ [c]) [] (n := fuel) h0.2 (by omega)
        refine ⟨rest, ?_⟩
        simpa using hrest
      | cons g gap =>
        obtain ⟨rest, hrest⟩ := ih (kept ++ [c]) (gap ++ [c]) (n := fuel) h0.2 (by omega)
        refine ⟨rest, ?_⟩
        simpa [Nat.add_assoc, Nat.add_comm, Nat.add_left_comm] using hrest

theorem removeSpecialLoop_clean (kept todo tail : List Byte) (h0 : 0 ∉ todo)
    (hs : ∀ c ∈ todo, isSpecial c = false) (hf : todo.length < n) :
    removeSpecialLoop n (kept ++ todo ++ 0 :: tail) kept.length kept.length =
      some (kept ++ todo ++ 0 :: tail) := by
  induction todo generalizing kept n with
  | nil =>
    obtain ⟨fuel, rfl⟩ : ∃ k, n = k + 1 := ⟨n - 1, by simp at hf; omega⟩
    rw [removeSpecialLoop]
    simp
  | cons c todo ih =>
    obtain ⟨fuel, rfl⟩ : ∃ k, n = k + 1 := ⟨n - 1, by simp at hf; omega⟩
    rw [List.length_cons] at hf
    rw [List.mem_cons, not_or] at h0
    have hc : ¬ (c = 10 ∨ c = 60 ∨ c = 62) := by
      rw [← isSpecial_iff, hs c List.mem_cons_self]
      decide
    have hget : (kept ++ c :: todo ++ 0 :: tail)[kept.length]? = some c := by
      rw [List.append_assoc, List.getElem?_append_right (Nat.le_refl _)]
      simp
    have hrest := ih (kept ++ [c]) (n := fuel) h0.2
      (fun x hx => hs x (List.mem_cons_of_mem _ hx)) (by omega)
    rw [removeSpecialLoop, hget]
    simp only
    rw [if_neg hc, if_neg (Ne.symm h0.1)]
    simpa using hrest

theorem stringAt_append (s t : List Byte) (h : 0 ∉ s) : stringAt (s ++ 0 :: t) = s := by
  rw [stringAt, List.takeWhile_append_of_pos]
  · simp
  · intro c hc
    simp only [ne_eq, decide_not, Bool.not_eq_eq_eq_not, Bool.not_true, decide_eq_false_iff_not]
    rintro rfl
    exact h hc

/-- `remove_special` deletes the special characters, and a second call changes nothing. -/
theorem removeSpecial_eq (s : CStr) (tail : List Byte) : ∃ mem,
    removeSpecial (s.1 ++ 0 :: tail) = some mem ∧ stringAt mem = clean s.1 ∧
      removeSpecial mem = some mem := by
  obtain ⟨rest, hrest⟩ := removeSpecialLoop_eq [] [] s.1 tail s.2
    (n := (s.1 ++ 0 :: tail).length) (by simp)
  simp only [List.nil_append, List.length_nil, Nat.add_zero] at hrest
  have h0 := clean_no_nul s.2
  refine ⟨clean s.1 ++ 0 :: rest, hrest, stringAt_append _ _ h0, ?_⟩
  have hagain := removeSpecialLoop_clean [] (clean s.1) rest h0 (clean_no_special s.1)
    (n := (clean s.1 ++ 0 :: rest).length) (by simp)
  rw [removeSpecial]
  exact hagain

/-- The strings of a signature, whether the variable is set or both are one and the same. -/
theorem cleanPair_eq (env : Option CStr) (real : CStr) :
    cleanPair env real.1 = some (clean (env.getD real).1, clean real.1) := by
  obtain ⟨mem, hmem, hstr, hagain⟩ := removeSpecial_eq real []
  cases env with
  | none => simp [cleanPair, hmem, hagain, hstr]
  | some s =>
    obtain ⟨mem', hmem', hstr', -⟩ := removeSpecial_eq s []
    simp [cleanPair, hmem, hmem', hstr, hstr']

theorem fgets_append (n : Nat) (s : List Byte) : (fgets n s).1 ++ (fgets n s).2 = s := by
  induction n generalizing s with
  | zero => rfl
  | succ n ih =>
    cases s with
    | nil => rfl
    | cons c s =>
      rw [fgets]
      split
      · rfl
      · simp only [List.cons_append, ih]

theorem fgets_length (n : Nat) (s : List Byte) : (fgets n s).1.length ≤ n := by
  induction n generalizing s with
  | zero => exact Nat.le_refl _
  | succ n ih =>
    cases s with
    | nil => exact Nat.zero_le _
    | cons c s =>
      rw [fgets]
      split
      · simp
      · simpa using ih s

theorem fgets_rest_length (n : Nat) (c : Byte) (s : List Byte) :
    (fgets (n + 1) (c :: s)).2.length ≤ s.length := by
  have hl := congrArg List.length (fgets_append n s)
  rw [List.length_append] at hl
  rw [fgets]
  split
  · exact Nat.le_refl _
  · simp only
    omega

theorem commentPieces_flatten (s : List Byte) (hf : s.length ≤ fuel) :
    (commentPieces fuel s).flatten = s := by
  induction fuel generalizing s with
  | zero => rw [List.length_eq_zero_iff.1 (Nat.le_zero.1 hf)]; rfl
  | succ fuel ih =>
    cases s with
    | nil => rfl
    | cons c s =>
      have hrest : (fgets 999 (c :: s)).2.length ≤ s.length := fgets_rest_length 998 c s
      rw [List.length_cons] at hf
      rw [commentPieces, List.flatten_cons, ih _ (by omega), fgets_append]

theorem commentPieces_mem (hp : p ∈ commentPieces fuel s) :
    p.length ≤ 999 ∧ ∀ c ∈ p, c ∈ s := by
  induction fuel generalizing s with
  | zero => cases hp
  | succ fuel ih =>
    cases s with
    | nil => cases hp
    | cons c s =>
      have happ := fgets_append 999 (c :: s)
      rw [commentPieces, List.mem_cons] at hp
      rcases hp with rfl | hp
      · refine ⟨fgets_length 999 _, ?_⟩
        intro x hx
        rw [← happ]
        exact List.mem_append_left _ hx
      · obtain ⟨hl, hmem⟩ := ih hp
        refine ⟨hl, ?_⟩
        intro x hx
        rw [← happ]
        exact List.mem_append_right _ (hmem x hx)

end SelfGit
