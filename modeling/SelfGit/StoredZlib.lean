import SelfGit.ObjectNames

namespace SelfGit
open Foundation
set_option autoImplicit true

def blockMax : Nat := 16383

def storedBlock (last : Byte) (s : List Byte) : List Byte :=
  last :: toLE 2 s.length ++ toLE 2 (65535 - s.length) ++ s

def storedBlocks : Nat → List Byte → List Byte
  | 0, s => storedBlock 1 s
  | n + 1, s => storedBlock 0 (s.take blockMax) ++ storedBlocks n (s.drop blockMax)

def adler32 (s : List Byte) : List Byte :=
  let ab := s.foldl (fun (ab : Nat × Nat) c =>
    ((ab.1 + c.toNat) % 65521, (ab.2 + ab.1 + c.toNat) % 65521)) (1, 0)
  (toLE 4 (ab.2 * 65536 + ab.1)).reverse

def storedStream (s : List Byte) : List Byte :=
  [0x78, 0xda] ++ storedBlocks ((s.length - 1) / blockMax) s ++ adler32 s

/-- The blocks of a stream of stored blocks, as far as they are there. -/
def inflateStored : Nat → List Byte → List Byte × InflateEnd
  | 0, _ => ([], .needMore)
  | fuel + 1, b =>
    if b.length < 5 then ([], .needMore)
    else
      let len := ofLE ((b.drop 1).take 2)
      let body := b.drop 5
      if body.length < len then (body, .needMore)
      else if b.getD 0 0 = 1 then
        (body.take len, if body.length < len + 4 then .needMore else .streamEnd)
      else if b.getD 0 0 = 0 then
        let rest := inflateStored fuel (body.drop len)
        (body.take len ++ rest.1, rest.2)
      else ([], .dataError)

/-- The library where nothing can be compressed, with the bound of its default settings. -/
def storedZlib : Zlib where
  deflate := fun ps => storedStream ps.flatten
  deflateBound := fun n => n + n / 2 ^ 12 + n / 2 ^ 14 + n / 2 ^ 25 + 13
  inflate := fun b =>
    match b with
    | 0x78 :: 0xda :: rest => inflateStored rest.length rest
    | _ :: _ :: _ => ([], .dataError)
    | _ => ([], .needMore)
  atEdge := fun _ => true

/-- A library with that compression, and the first bytes for a hash. -/
def storedLib : Lib where
  sha1 := fun b => ⟨(b ++ List.replicate 20 0).take 20, by simp⟩
  zlib := storedZlib
  dbEnvironment := none

def cstr (s : String) : CStr := ⟨(str s).filter (· ≠ 0), by simp⟩

theorem storedBlock_length (last : Byte) (s : List Byte) :
    (storedBlock last s).length = s.length + 5 := by
  simp only [storedBlock, List.length_append, List.length_cons, toLE_length]
  omega

theorem storedBlocks_length (n : Nat) (s : List Byte) (hn : n * blockMax ≤ s.length) :
    (storedBlocks n s).length = s.length + 5 * (n + 1) := by
  induction n generalizing s with
  | zero => rw [storedBlocks, storedBlock_length]
  | succ n ih =>
    have hs := hn
    rw [Nat.add_one_mul] at hs
    rw [storedBlocks, List.length_append, storedBlock_length,
      ih (s.drop blockMax) (by rw [List.length_drop]; omega), List.length_take,
      List.length_drop]
    omega

theorem full_blocks (n : Nat) : (n - 1) / blockMax * blockMax ≤ n :=
  Nat.le_trans (Nat.div_mul_le_self _ _) (Nat.sub_le _ _)

theorem storedStream_length (s : List Byte) :
    (storedStream s).length = s.length + 5 * ((s.length - 1) / blockMax) + 11 := by
  simp only [storedStream, List.length_append, adler32, List.length_reverse, toLE_length,
    storedBlocks_length _ _ (full_blocks s.length), List.length_cons, List.length_nil]
  omega

theorem inflateStored_block (last : Byte) (s t : List Byte) (hs : s.length < 2 ^ 16)
    (hl : last = 0 ∨ last = 1) (k fuel : Nat) :
    inflateStored (fuel + 1) ((storedBlock last s ++ t).take k) =
      if k < s.length + 5 then (s.take (k - 5), .needMore)
      else if last = 1 then
        (s, if (t.take (k - (s.length + 5))).length < 4 then .needMore else .streamEnd)
      else
        (s ++ (inflateStored fuel (t.take (k - (s.length + 5)))).1,
          (inflateStored fuel (t.take (k - (s.length + 5)))).2) := by
  by_cases hk : k < 5
  · rw [inflateStored, if_pos (by rw [List.length_take]; omega), if_pos (by omega),
      Nat.sub_eq_zero_of_le (by omega), List.take_zero]
  · obtain ⟨j, rfl⟩ : ∃ j, k = 5 + j := ⟨k - 5, by omega⟩
    have hb : (storedBlock last s ++ t).take (5 + j) =
        (last :: (toLE 2 s.length ++ toLE 2 (65535 - s.length))) ++ (s ++ t).take j := by
      have h5 : (last :: (toLE 2 s.length ++ toLE 2 (65535 - s.length))).length = 5 := by simp
      have he : storedBlock last s ++ t =
          (last :: (toLE 2 s.length ++ toLE 2 (65535 - s.length))) ++ (s ++ t) := by
        simp only [storedBlock, List.cons_append, List.append_assoc]
      rw [he, ← h5, List.take_length_add_append]
    have hlen : ofLE (((storedBlock last s ++ t).take (5 + j)).drop 1 |>.take 2) = s.length := by
      rw [hb, List.cons_append, List.drop_succ_cons, List.drop_zero, List.append_assoc,
        List.take_left' (toLE_length _ _), ofLE_toLE, Nat.mod_eq_of_lt (by omega)]
    have hbody : ((storedBlock last s ++ t).take (5 + j)).drop 5 = (s ++ t).take j := by
      rw [hb, List.drop_left' (by simp)]
    have hfirst : ((storedBlock last s ++ t).take (5 + j)).getD 0 0 = last := by
      rw [hb, List.cons_append, List.getD_cons_zero]
    have hroom : ¬ ((storedBlock last s ++ t).take (5 + j)).length < 5 := by
      simp only [hb, List.length_append, List.length_cons, toLE_length]
      omega
    rw [inflateStored, if_neg hroom]
    simp only [hlen, hbody, hfirst]
    have hj : 5 + j - 5 = j := by omega
    by_cases hjs : j < s.length
    · rw [if_pos (by rw [List.length_take, List.length_append]; omega), if_pos (by omega), hj,
        List.take_append_of_le_length (by omega)]
    · have hsub : 5 + j - (s.length + 5) = j - s.length := by omega
      have htake : (s ++ t).take j = s ++ t.take (j - s.length) := by
        rw [List.take_append, List.take_of_length_le (by omega)]
      have hfull : ¬ ((s ++ t).take j).length < s.length := by
        rw [htake, List.length_append]
        omega
      have hpast : ¬ 5 + j < s.length + 5 := by omega
      rw [if_neg hfull, if_neg hpast, hsub, htake, List.take_left' rfl, List.drop_left' rfl]
      rcases hl with rfl | rfl
      · simp only [show (0 : Byte) ≠ 1 by decide, ↓reduceIte]
      · simp only [↓reduceIte, List.length_append, Nat.add_lt_add_iff_left]

theorem inflateStored_blocks (n : Nat) (s tail : List Byte) (hn : n * blockMax ≤ s.length)
    (hs : s.length ≤ (n + 1) * blockMax) (ht : tail.length = 4) (k fuel : Nat)
    (hf : k ≤ fuel) :
    (inflateStored fuel ((storedBlocks n s ++ tail).take k)).1 <+: s ∧
      ((storedBlocks n s ++ tail).length ≤ k →
        inflateStored fuel ((storedBlocks n s ++ tail).take k) = (s, .streamEnd)) ∧
      (k < (storedBlocks n s ++ tail).length →
        (inflateStored fuel ((storedBlocks n s ++ tail).take k)).2 = .needMore) := by
  induction fuel generalizing n s k with
  | zero =>
    refine ⟨List.nil_prefix, fun h => ?_, fun _ => rfl⟩
    rw [List.length_append, ht] at h
    omega
  | succ fuel ih =>
    cases n with
    | zero =>
      have hlt : s.length < 2 ^ 16 := by
        simp only [blockMax] at hs
        omega
      have hb := inflateStored_block 1 s tail hlt (.inr rfl) k fuel
      have hlen : (storedBlocks 0 s ++ tail).length = s.length + 9 := by
        simp only [storedBlocks, List.length_append, storedBlock_length, ht]
      rw [hlen, storedBlocks, hb]
      by_cases hk : k < s.length + 5
      · rw [if_pos hk]
        exact ⟨List.take_prefix _ _, fun h => (by omega), fun _ => rfl⟩
      · rw [if_neg hk, if_pos rfl]
        refine ⟨List.prefix_refl _, fun h => ?_, fun h => ?_⟩
        · rw [if_neg (by rw [List.length_take, ht]; omega)]
        · rw [if_pos (by rw [List.length_take, ht]; omega)]
    | succ n =>
      rw [Nat.add_one_mul] at hn hs
      have hfirst : (s.take blockMax).length = blockMax := by
        rw [List.length_take]
        omega
      have hb := inflateStored_block 0 (s.take blockMax)
        (storedBlocks n (s.drop blockMax) ++ tail) (by rw [hfirst]; decide) (.inl rfl) k fuel
      rw [hfirst] at hb
      obtain ⟨h1, h2, h3⟩ := ih n (s.drop blockMax) (by rw [List.length_drop]; omega)
        (by rw [List.length_drop]; omega) (k - (blockMax + 5)) (by omega)
      have hlen : (storedBlocks (n + 1) s ++ tail).length =
          blockMax + 5 + (storedBlocks n (s.drop blockMax) ++ tail).length := by
        rw [storedBlocks, List.append_assoc, List.length_append, storedBlock_length, hfirst]
      rw [hlen, storedBlocks, List.append_assoc, hb]
      by_cases hk : k < blockMax + 5
      · rw [if_pos hk]
        refine ⟨?_, fun h => (by omega), fun _ => rfl⟩
        exact (List.take_prefix _ _).trans (List.take_prefix _ _)
      · rw [if_neg hk, if_neg (by decide)]
        refine ⟨?_, fun h => ?_, fun h => h3 (by omega)⟩
        · obtain ⟨u, hu⟩ := h1
          exact ⟨u, by rw [List.append_assoc, hu, List.take_append_drop]⟩
        · rw [h2 (by omega), List.take_append_drop]

theorem inflateStored_cut (n : Nat) (s tail : List Byte) (hn : n * blockMax < s.length)
    (hs : s.length ≤ (n + 1) * blockMax) (k fuel : Nat) (hf : k ≤ fuel)
    (hk : k < s.length + 5 * (n + 1)) :
    (inflateStored fuel ((storedBlocks n s ++ tail).take k)).1 ≠ s := by
  induction n generalizing s k fuel with
  | zero =>
    have hpos : 0 < s.length := by omega
    cases fuel with
    | zero =>
      intro h
      rw [← h] at hpos
      exact Nat.lt_irrefl 0 hpos
    | succ fuel =>
      rw [storedBlocks, inflateStored_block 1 s tail (by simp only [blockMax] at hs; omega)
        (.inr rfl), if_pos (by omega)]
      intro h
      have hl := congrArg List.length h
      rw [List.length_take] at hl
      omega
  | succ n ih =>
    rw [Nat.add_one_mul] at hn hs
    have hfirst : (s.take blockMax).length = blockMax := by
      rw [List.length_take]
      omega
    cases fuel with
    | zero =>
      intro h
      have hl := congrArg List.length h
      simp only [inflateStored, List.length_nil] at hl
      omega
    | succ fuel =>
      rw [storedBlocks, List.append_assoc, inflateStored_block 0 (s.take blockMax)
        (storedBlocks n (s.drop blockMax) ++ tail) (by rw [hfirst]; decide) (.inl rfl), hfirst]
      by_cases hkb : k < blockMax + 5
      · rw [if_pos hkb]
        intro h
        have hl := congrArg List.length h
        simp only [List.length_take] at hl
        omega
      · rw [if_neg hkb, if_neg (by decide)]
        intro h
        apply ih (s.drop blockMax) (by rw [List.length_drop]; omega)
          (by rw [List.length_drop]; omega) (k - (blockMax + 5)) fuel (by omega)
          (by rw [List.length_drop]; omega)
        have hd := congrArg (List.drop blockMax) h
        rw [List.drop_left' hfirst] at hd
        exact hd

theorem blocks_enough (n : Nat) : n ≤ ((n - 1) / blockMax + 1) * blockMax := by
  have := Nat.lt_div_mul_add (a := n - 1) (b := blockMax) (by decide)
  rw [Nat.add_one_mul]
  omega

theorem storedZlib_inverse (ps : List (List Byte)) :
    storedZlib.inflate (storedZlib.deflate ps) = (ps.flatten, .streamEnd) := by
  obtain ⟨-, h, -⟩ := inflateStored_blocks ((ps.flatten.length - 1) / blockMax) ps.flatten
    (adler32 ps.flatten) (full_blocks _) (blocks_enough _) rfl _ _ (Nat.le_refl _)
  rw [List.take_length] at h
  exact h (Nat.le_refl _)

theorem storedZlib_cut (ps : List (List Byte)) (hk : k < (storedZlib.deflate ps).length) :
    (storedZlib.inflate ((storedZlib.deflate ps).take k)).1 <+: ps.flatten ∧
      (storedZlib.inflate ((storedZlib.deflate ps).take k)).2 = .needMore := by
  rcases k with - | - | k
  · exact ⟨List.nil_prefix, rfl⟩
  · exact ⟨List.nil_prefix, rfl⟩
  · have hlen : k < (storedBlocks ((ps.flatten.length - 1) / blockMax) ps.flatten ++
        adler32 ps.flatten).length := Nat.lt_of_add_lt_add_right hk
    obtain ⟨h1, -, h3⟩ := inflateStored_blocks ((ps.flatten.length - 1) / blockMax) ps.flatten
      (adler32 ps.flatten) (full_blocks _) (blocks_enough _) rfl k
      ((storedBlocks ((ps.flatten.length - 1) / blockMax) ps.flatten ++
        adler32 ps.flatten).take k).length (by rw [List.length_take]; omega)
    exact ⟨h1, h3 hlen⟩

theorem storedZlib_short (ps : List (List Byte)) (h0 : 0 < ps.flatten.length)
    (hk : k + 4 < (storedZlib.deflate ps).length) :
    (storedZlib.inflate ((storedZlib.deflate ps).take k)).1 ≠ ps.flatten := by
  have hlen : (storedZlib.deflate ps).length =
      ps.flatten.length + 5 * ((ps.flatten.length - 1) / blockMax) + 11 :=
    storedStream_length ps.flatten
  have hn : (ps.flatten.length - 1) / blockMax * blockMax < ps.flatten.length :=
    Nat.lt_of_le_of_lt (Nat.div_mul_le_self _ _) (by omega)
  have hpos : ∀ l : List Byte, l = [] → l ≠ ps.flatten := by
    intro l hl h
    rw [← h, hl] at h0
    exact Nat.lt_irrefl 0 h0
  rcases k with - | - | k
  · exact hpos _ rfl
  · exact hpos _ rfl
  · exact inflateStored_cut _ ps.flatten (adler32 ps.flatten) hn (blocks_enough _) k
      ((storedBlocks ((ps.flatten.length - 1) / blockMax) ps.flatten ++
        adler32 ps.flatten).take k).length
      (by
        rw [List.length_take, List.length_append, storedBlocks_length _ _ (Nat.le_of_lt hn)]
        omega) (by omega)

theorem storedZlib_lossless : storedZlib.Lossless where
  inverse := storedZlib_inverse
  bound ps := by
    change (storedStream ps.flatten).length ≤ _
    rw [storedStream_length]
    simp only [storedZlib, blockMax]
    omega
  cut ps _ hk := storedZlib_cut ps hk

end SelfGit
