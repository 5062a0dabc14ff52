import SelfGit.Objects

namespace SelfGit
open Foundation
set_option autoImplicit true

theorem objectDirectory_no_nul (L : Lib) : 0 ∉ L.objectDirectory := by
  rw [Lib.objectDirectory]
  split
  · rename_i d _
    exact d.2
  · decide

theorem hexDigit_ne_zero (h : n.toNat < 16) : hexDigit n ≠ 0 := by
  have hall : ∀ k < 16, (str "0123456789abcdef").getD k 0 ≠ 0 := by decide
  exact hall _ h

theorem high_lt (b : Byte) : (b >>> 4).toNat < 16 := by
  have hb := b.toNat_lt
  rw [UInt8.toNat_shiftRight]
  simp only [UInt8.reduceToNat, Nat.reduceMod, Nat.shiftRight_eq_div_pow]
  omega

theorem low_lt (b : Byte) : (b &&& 0xf).toNat < 16 := by
  have h : (b &&& 0xf).toNat ≤ 15 := by
    rw [UInt8.toNat_and]
    exact Nat.and_le_right
  omega

theorem hexByte_ne_zero (h : c ∈ hexByte b) : c ≠ 0 := by
  simp only [hexByte, List.mem_cons, List.not_mem_nil, or_false] at h
  rcases h with rfl | rfl
  · exact hexDigit_ne_zero (high_lt b)
  · exact hexDigit_ne_zero (low_lt b)

theorem hexDigit_injective (hm : m.toNat < 16) (hn : n.toNat < 16)
    (h : hexDigit m = hexDigit n) : m = n := by
  have hall : ∀ i < 16, ∀ j < 16, (str "0123456789abcdef").getD i 0 =
      (str "0123456789abcdef").getD j 0 → i = j := by decide
  exact UInt8.toNat.inj (hall _ hm _ hn h)

theorem hexByte_injective (h : hexByte a = hexByte b) : a = b := by
  simp only [hexByte, List.cons.injEq, and_true] at h
  have hh := hexDigit_injective (high_lt a) (high_lt b) h.1
  have hl := hexDigit_injective (low_lt a) (low_lt b) h.2
  have hh' := congrArg UInt8.toNat hh
  have hl' := congrArg UInt8.toNat hl
  simp only [UInt8.toNat_shiftRight, UInt8.toNat_and, UInt8.reduceToNat, Nat.reduceMod,
    Nat.shiftRight_eq_div_pow] at hh' hl'
  have hmod (n : Nat) : n &&& 15 = n % 16 := Nat.and_two_pow_sub_one_eq_mod n 4
  rw [hmod, hmod] at hl'
  apply UInt8.toNat.inj
  omega

@[simp] theorem sha1ToHex_length (s : List Byte) : (sha1ToHex s).length = 2 * s.length := by
  induction s with
  | nil => rfl
  | cons b s ih =>
    simp only [sha1ToHex, List.flatMap_cons, List.length_append, hexByte, List.length_cons,
      List.length_nil] at ih ⊢
    omega

theorem sha1ToHex_ne_zero (h : c ∈ sha1ToHex s) : c ≠ 0 := by
  simp only [sha1ToHex, List.mem_flatMap] at h
  obtain ⟨b, -, hc⟩ := h
  exact hexByte_ne_zero hc

theorem sha1ToHex_injective {s t : List Byte} (h : sha1ToHex s = sha1ToHex t) : s = t := by
  induction s generalizing t with
  | nil =>
    cases t with
    | nil => rfl
    | cons b t => simp [sha1ToHex, hexByte] at h
  | cons a s ih =>
    cases t with
    | nil => simp [sha1ToHex, hexByte] at h
    | cons b t =>
      have hab := List.append_inj h rfl
      rw [hexByte_injective hab.1, ih hab.2]

theorem fill_rounds (f g : Byte → Byte) (t pre z : List Byte) (hz : 2 * t.length ≤ z.length) :
    (List.range t.length).foldl (fun name i =>
      (name.set (pre.length + i * 2) (f (t.getD i 0))).set
        (pre.length + i * 2 + 1) (g (t.getD i 0))) (pre ++ z) =
      pre ++ (t.flatMap fun b => [f b, g b]) ++ z.drop (2 * t.length) := by
  induction t generalizing pre z with
  | nil => simp
  | cons b t ih =>
    obtain ⟨x, y, z, rfl⟩ : ∃ x y z', z = x :: y :: z' := by
      rw [List.length_cons] at hz
      rcases z with - | ⟨x, - | ⟨y, z⟩⟩
      · rw [List.length_nil] at hz
        omega
      · rw [List.length_singleton] at hz
        omega
      · exact ⟨x, y, z, rfl⟩
    have hstep : ((pre ++ x :: y :: z).set (pre.length + 0 * 2) (f b)).set
        (pre.length + 0 * 2 + 1) (g b) = pre ++ [f b, g b] ++ z := by
      simp
    have hl : 2 * t.length ≤ z.length := by
      simp only [List.length_cons] at hz
      omega
    have hrest := ih (pre ++ [f b, g b]) z hl
    have hp (i : Nat) : pre.length + (i + 1) * 2 = (pre ++ [f b, g b]).length + i * 2 := by
      simp only [List.length_append, List.length_cons, List.length_nil]
      omega
    rw [List.length_cons, List.range_succ_eq_map, List.foldl_cons, List.getD_cons_zero, hstep,
      List.foldl_map]
    simp only [List.getD_cons_succ, Nat.succ_eq_add_one, hp]
    rw [hrest, show 2 * (t.length + 1) = 2 * t.length + 2 by omega]
    simp

theorem fillName_over (s : Sha1) (x y : Byte) (z : List Byte) (hz : 38 ≤ z.length) :
    fillName s.toList (x :: y :: 47 :: z) =
      (sha1ToHex s.toList).take 2 ++ 47 :: (sha1ToHex s.toList).drop 2 ++ z.drop 38 := by
  obtain ⟨l, hl⟩ := s
  obtain ⟨b, t, rfl⟩ := List.exists_cons_of_length_eq_add_one hl
  have ht : t.length = 19 := by simpa using hl
  have hrest := fill_rounds (fun v => hexDigit (v >>> 4)) (fun v => hexDigit (v &&& 0xf)) t
    (hexByte b ++ [47]) z (by omega)
  have hp (i : Nat) : (i + 1) * 2 + 1 = (hexByte b ++ [47]).length + i * 2 := by
    simp only [hexByte, List.length_append, List.length_cons, List.length_nil]
    omega
  rw [ht] at hrest
  change (List.range 20).foldl _ (x :: y :: 47 :: z) = _
  rw [show List.range 20 = 0 :: (List.range 19).map Nat.succ from List.range_succ_eq_map,
    List.foldl_cons, List.foldl_map]
  simp only [List.Vector.toList, Nat.succ_eq_add_one, List.getD_cons_zero, List.getD_cons_succ,
    Nat.zero_lt_succ, gt_iff_lt, ↓reduceIte, hp, Nat.lt_irrefl]
  refine Eq.trans ?_ (hrest.trans ?_)
  · rfl
  · simp only [sha1ToHex, List.flatMap_cons, hexByte, List.cons_append, List.nil_append,
      List.take_succ_cons, List.take_zero, List.drop_succ_cons, List.drop_zero]
    rfl

theorem fillName_eq (s : Sha1) :
    fillName s.toList nameBuffer =
      (sha1ToHex s.toList).take 2 ++ 47 :: (sha1ToHex s.toList).drop 2 ++
        List.replicate 18 0 := by
  have hover := fillName_over s 0 0 (List.replicate 56 0) (by decide)
  rwa [List.drop_replicate] at hover

theorem sha1FileName_eq (L : Lib) (s : Sha1) :
    sha1FileName L s = L.objectDirectory ++ 47 :: (sha1ToHex s.toList).take 2 ++
      47 :: (sha1ToHex s.toList).drop 2 := by
  have hd := objectDirectory_no_nul L
  have hx : ∀ c ∈ L.objectDirectory ++ 47 :: (sha1ToHex s.toList).take 2 ++
      47 :: (sha1ToHex s.toList).drop 2, decide (c ≠ 0) = true := by
    intro c hc
    simp only [List.mem_append, List.mem_cons] at hc
    rw [decide_eq_true_eq]
    rcases hc with (hc | rfl | hc) | rfl | hc
    · rintro rfl
      exact hd hc
    · decide
    · exact sha1ToHex_ne_zero (List.mem_of_mem_take hc)
    · decide
    · exact sha1ToHex_ne_zero (List.mem_of_mem_drop hc)
  have he : L.objectDirectory ++ 47 :: fillName s.toList nameBuffer =
      (L.objectDirectory ++ 47 :: (sha1ToHex s.toList).take 2 ++
        47 :: (sha1ToHex s.toList).drop 2) ++ List.replicate 18 0 := by
    rw [fillName_eq]
    simp only [List.append_assoc, List.cons_append]
  rw [sha1FileName, he, List.takeWhile_append_of_pos hx]
  simp

theorem sha1FileName_length (L : Lib) (s : Sha1) :
    (sha1FileName L s).length = L.objectDirectory.length + 42 := by
  rw [sha1FileName_eq]
  simp

theorem sha1FileName_injective {L : Lib} {s t : Sha1} (h : sha1FileName L s = sha1FileName L t) :
    s = t := by
  rw [sha1FileName_eq, sha1FileName_eq] at h
  have hl : (L.objectDirectory ++ 47 :: (sha1ToHex s.toList).take 2).length =
      (L.objectDirectory ++ 47 :: (sha1ToHex t.toList).take 2).length := by simp
  obtain ⟨h1, h2⟩ := List.append_inj h hl
  have h1' := List.append_cancel_left h1
  rw [List.cons.injEq] at h1' h2
  apply Subtype.ext
  apply sha1ToHex_injective
  change sha1ToHex s.toList = sha1ToHex t.toList
  rw [← List.take_append_drop 2 (sha1ToHex s.toList), h1'.2, h2.2, List.take_append_drop]

theorem sha1FileName_ne_lock (L : Lib) (s : Sha1) : sha1FileName L s ≠ lockPath := by
  intro h
  have hl := sha1FileName_length L s
  rw [h, show lockPath.length = 20 by decide] at hl
  omega

theorem sha1FileName_ne_index (L : Lib) (s : Sha1) : sha1FileName L s ≠ indexPath := by
  intro h
  have hl := sha1FileName_length L s
  rw [h, show indexPath.length = 15 by decide] at hl
  omega

theorem index_ne_lock : indexPath ≠ lockPath := by decide

end SelfGit
