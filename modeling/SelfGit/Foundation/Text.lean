import SelfGit.Foundation.Bytes

namespace Foundation
set_option autoImplicit true

/-- The digits of `n` in base `b`, highest first, as `%lu` and `%o` print them. -/
def numeral (b n : Nat) : List Byte :=
  if n = 0 then [48] else (Nat.digits b n).reverse.map fun d => UInt8.ofNat (48 + d)

def isDigit (b : Nat) (c : Byte) : Bool := 48 ≤ c.toNat && c.toNat < 48 + b

/-- The characters `isspace` accepts in the C locale. -/
def isSpace (c : Byte) : Bool := c.toNat = 32 || (9 ≤ c.toNat && c.toNat ≤ 13)

def scanDigits (b : Nat) : Nat → List Byte → Nat × List Byte
  | v, [] => (v, [])
  | v, c :: s => if isDigit b c then scanDigits b (v * b + (c.toNat - 48)) s else (v, c :: s)

/-- `%lu` and `%o`: blanks, an optional sign, and at least one digit, as `strtoul` reads them. A
value that is too large is `ULONG_MAX` with either sign. -/
def scanUnsigned (b : Nat) (s : List Byte) : Option (Nat × List Byte) :=
  let s := s.dropWhile isSpace
  let neg := s.head? = some 45
  let t := if s.head? = some 45 ∨ s.head? = some 43 then s.tail else s
  match t with
  | [] => none
  | c :: _ =>
    if isDigit b c then
      let v := (scanDigits b 0 t).1
      let value := if 2 ^ 64 ≤ v then 2 ^ 64 - 1 else if neg then (2 ^ 64 - v) % 2 ^ 64 else v
      some (value, (scanDigits b 0 t).2)
    else none

/-- `%<width>s`: blanks, then at least one and at most `width` other characters. -/
def scanWord (width : Nat) (s : List Byte) : Option (List Byte × List Byte) :=
  let s := s.dropWhile isSpace
  let w := (s.takeWhile fun c => !isSpace c).take width
  if w = [] then none else some (w, s.drop w.length)

theorem isDigit_of_lt {d : Nat} (hb : b ≤ 10) (hd : d < b) :
    isDigit b (UInt8.ofNat (48 + d)) = true := by
  simp only [isDigit, UInt8.toNat_ofNat', Bool.and_eq_true, decide_eq_true_eq]
  omega

theorem numeral_digit (hb : 1 < b) (hb' : b ≤ 10) (hc : c ∈ numeral b n) :
    isDigit b c = true := by
  unfold numeral at hc
  split at hc
  · rw [List.mem_singleton] at hc
    subst c
    exact isDigit_of_lt (d := 0) hb' (by omega)
  · simp only [List.mem_map, List.mem_reverse] at hc
    obtain ⟨d, hd, rfl⟩ := hc
    exact isDigit_of_lt hb' (Nat.digits_lt_base hb hd)

theorem digit_ne_zero (h : isDigit b c = true) : c ≠ 0 := by
  rintro rfl
  simp [isDigit] at h

theorem digit_not_space (h : isDigit b c = true) : isSpace c = false := by
  simp only [isDigit, Bool.and_eq_true, decide_eq_true_eq] at h
  simp only [isSpace, Bool.or_eq_false_iff, decide_eq_false_iff_not, Bool.and_eq_false_iff]
  omega

theorem numeral_ne_nil (b n : Nat) : numeral b n ≠ [] := by
  unfold numeral
  split
  · simp
  · rename_i h
    simp [Nat.digits_ne_nil_iff_ne_zero.2 h]

theorem numeral_length_pos (b n : Nat) : 0 < (numeral b n).length :=
  List.length_pos_iff.2 (numeral_ne_nil b n)

theorem numeral_length_le (hb : 1 < b) (hk : 0 < k) (hn : n < b ^ k) :
    (numeral b n).length ≤ k := by
  unfold numeral
  split
  · exact hk
  · simp only [List.length_map, List.length_reverse]
    exact (Nat.digits_length_le_iff hb n).2 hn

theorem lt_numeral_length (hb : 1 < b) (hn : b ^ k ≤ n) : k < (numeral b n).length := by
  have hpos : n ≠ 0 := by
    have hpow := Nat.pow_pos (n := k) (Nat.zero_lt_of_lt hb)
    omega
  rw [numeral, if_neg hpos, List.length_map, List.length_reverse]
  exact (Nat.lt_digits_length_iff hb n).2 hn

theorem scanDigits_run (hb : b ≤ 10) (ds : List Nat) (hds : ∀ d ∈ ds, d < b) (v : Nat)
    (t : List Byte) :
    scanDigits b v (ds.map (fun d => UInt8.ofNat (48 + d)) ++ t) =
      scanDigits b (v * b ^ ds.length + Nat.ofDigits b ds.reverse) t := by
  induction ds generalizing v with
  | nil => simp only [List.map_nil, List.nil_append, List.length_nil, pow_zero, mul_one,
      List.reverse_nil, Nat.ofDigits_nil, add_zero]
  | cons d ds ih =>
    have hd : d < b := hds d (List.mem_cons_self)
    have hdv : (UInt8.ofNat (48 + d)).toNat - 48 = d := by
      rw [UInt8.toNat_ofNat']
      omega
    simp only [List.map_cons, List.cons_append, scanDigits, isDigit_of_lt hb hd, ↓reduceIte, hdv]
    rw [ih (fun e he => hds e (List.mem_cons_of_mem _ he))]
    congr 1
    simp only [List.reverse_cons, Nat.ofDigits_append, List.length_reverse, List.length_cons,
      Nat.ofDigits_singleton, pow_succ]
    ring

theorem scanDigits_stop (v : Nat) (t : List Byte) (ht : ∀ c ∈ t.head?, isDigit b c = false) :
    scanDigits b v t = (v, t) := by
  cases t with
  | nil => rfl
  | cons c t =>
    have hc := ht c rfl
    simp only [scanDigits, hc, Bool.false_eq_true, ↓reduceIte]

theorem scanDigits_numeral (hb : 1 < b) (hb' : b ≤ 10) (n : Nat) (t : List Byte)
    (ht : ∀ c ∈ t.head?, isDigit b c = false) :
    scanDigits b 0 (numeral b n ++ t) = (n, t) := by
  unfold numeral
  split
  · rename_i hn
    have h := scanDigits_run hb' [0] (by simp; omega) 0 t
    simp only [List.map_cons, add_zero, List.map_nil, List.cons_append, List.nil_append,
      List.length_cons, List.length_nil, zero_add, zero_mul, List.reverse_cons,
      List.reverse_nil, Nat.ofDigits_singleton] at h
    rw [show (48 : Byte) = UInt8.ofNat 48 from rfl, List.singleton_append, h,
      scanDigits_stop 0 t ht, hn]
  · have hd : ∀ d ∈ (Nat.digits b n).reverse, d < b := by
      intro d hd
      exact Nat.digits_lt_base hb (List.mem_reverse.1 hd)
    rw [scanDigits_run hb' _ hd, List.reverse_reverse, Nat.ofDigits_digits, zero_mul, zero_add]
    exact scanDigits_stop n t ht

/-- Printing a number and scanning it back is exact for every 64-bit value. -/
theorem scanUnsigned_numeral (hb : 1 < b) (hb' : b ≤ 10) (hn : n < 2 ^ 64) (t : List Byte)
    (ht : ∀ c ∈ t.head?, isDigit b c = false) :
    scanUnsigned b (numeral b n ++ t) = some (n, t) := by
  obtain ⟨c, s, hs⟩ := List.exists_cons_of_ne_nil (numeral_ne_nil b n)
  have hc : isDigit b c = true := numeral_digit hb hb' (by rw [hs]; exact List.mem_cons_self)
  have hsp : isSpace c = false := digit_not_space hc
  have hv := scanDigits_numeral hb hb' n t ht
  have hsign : c ≠ 45 ∧ c ≠ 43 := by
    constructor <;>
    · rintro rfl
      simp [isDigit] at hc
  rw [hs, List.cons_append] at hv ⊢
  simp only [scanUnsigned, List.dropWhile_cons, hsp, Bool.false_eq_true, ↓reduceIte,
    List.head?_cons, Option.some.injEq, hsign.1, hsign.2, or_self, hc, hv]
  rw [if_neg (by omega)]

theorem scanWord_append (w t : List Byte) (hw : w ≠ []) (hs : ∀ c ∈ w, isSpace c = false)
    (hl : w.length ≤ width) : scanWord width (w ++ 32 :: t) = some (w, 32 :: t) := by
  obtain ⟨c, w', rfl⟩ := List.exists_cons_of_ne_nil hw
  have hc : isSpace c = false := hs c List.mem_cons_self
  have hd : (c :: w' ++ 32 :: t).dropWhile isSpace = c :: w' ++ 32 :: t := by
    simp only [List.cons_append, List.dropWhile_cons, hc, Bool.false_eq_true, ↓reduceIte]
  have ht : (c :: w' ++ 32 :: t).takeWhile (fun c => !isSpace c) = c :: w' := by
    have hsp : isSpace 32 = true := by decide
    rw [List.takeWhile_append_of_pos (by simpa using hs)]
    simp [hsp]
  simp only [scanWord, hd, ht, List.take_of_length_le hl]
  simp

theorem split_unique {a : α} {x₁ x₂ z₁ z₂ : List α} (h₁ : a ∉ x₁) (h₂ : a ∉ x₂)
    (h : x₁ ++ a :: z₁ = x₂ ++ a :: z₂) : x₁ = x₂ ∧ z₁ = z₂ := by
  induction x₁ generalizing x₂ with
  | nil =>
    cases x₂ with
    | nil => exact ⟨rfl, (List.cons.inj h).2⟩
    | cons b x₂ => exact absurd ((List.cons.inj h).1 ▸ List.mem_cons_self) h₂
  | cons b x₁ ih =>
    cases x₂ with
    | nil => exact absurd ((List.cons.inj h).1.symm ▸ List.mem_cons_self) h₁
    | cons c x₂ =>
      obtain ⟨hbc, htail⟩ := List.cons.inj h
      obtain ⟨hx, hz⟩ := ih (fun hm => h₁ (List.mem_cons_of_mem _ hm))
        (fun hm => h₂ (List.mem_cons_of_mem _ hm)) htail
      exact ⟨by rw [hbc, hx], hz⟩

end Foundation
