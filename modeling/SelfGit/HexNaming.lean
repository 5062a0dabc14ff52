import SelfGit.Parents

namespace SelfGit
open Foundation
set_option autoImplicit true

/-- The static variables of `sha1_file_name`: the block at `base`, and where `name` points. -/
structure NameBuffer where
  base : List Byte
  name : Nat

def NameBuffer.init (L : Lib) : NameBuffer where
  base := L.objectDirectory ++ 47 :: nameBuffer
  name := L.objectDirectory.length + 1

/-- A call of `sha1_file_name`, the first one if there is no block yet. -/
def NameBuffer.call (L : Lib) (b : Option NameBuffer) (s : Sha1) : NameBuffer :=
  let b := b.getD (.init L)
  { b with base := b.base.take b.name ++ fillName s.toList (b.base.drop b.name) }

/-- A call of `sha1_to_hex`, which writes 40 characters over its static buffer of 50. -/
def hexCall (buffer : List Byte) (s : Sha1) : List Byte := sha1ToHex s.toList ++ buffer.drop 40

section Digits

theorem hexDigit_lower (h : n.toNat < 16) :
    isHexDigit (hexDigit n) = true ∧ lowerDigit (hexDigit n) = hexDigit n := by
  have hall : ∀ k < 16, isHexDigit ((str "0123456789abcdef").getD k 0) = true ∧
      lowerDigit ((str "0123456789abcdef").getD k 0) = (str "0123456789abcdef").getD k 0 := by
    decide
  exact hall _ h

theorem sha1ToHex_digit (h : c ∈ sha1ToHex s) : isHexDigit c = true ∧ lowerDigit c = c := by
  simp only [sha1ToHex, List.mem_flatMap] at h
  obtain ⟨b, -, hc⟩ := h
  simp only [hexByte, List.mem_cons, List.not_mem_nil, or_false] at hc
  rcases hc with rfl | rfl
  · exact hexDigit_lower (high_lt b)
  · exact hexDigit_lower (low_lt b)

theorem sha1ToHex_isHex (s : Sha1) : ∃ p : CStr, p.1 = sha1ToHex s.toList ∧ IsHex p := by
  have hlen : (sha1ToHex s.toList).length = 40 := by
    rw [sha1ToHex_length, List.Vector.toList_length]
  refine ⟨⟨sha1ToHex s.toList, fun h => sha1ToHex_ne_zero h rfl⟩, rfl, hlen.ge, ?_⟩
  intro c hc
  exact (sha1ToHex_digit (List.mem_of_mem_take hc)).1

/-- What lies behind the NUL of a string does not matter to `get_sha1_hex`. -/
theorem getSha1Hex_memory (h : CStr) (beyond : List Byte) :
    ((getSha1Hex (h.1 ++ 0 :: beyond)).2 = true ↔ IsHex h) ∧
      (IsHex h → sha1ToHex (getSha1Hex (h.1 ++ 0 :: beyond)).1 = hexOf h) := by
  obtain ⟨hiff, hback⟩ := getSha1HexLoop_spec 20 (h.1 ++ 0 :: beyond)
  have hdigits : 2 * 20 ≤ (h.1 ++ 0 :: beyond).length ∧
      (∀ c ∈ (h.1 ++ 0 :: beyond).take (2 * 20), isHexDigit c = true) ↔ IsHex h := by
    constructor
    · rintro ⟨-, hall⟩
      have hlong : 40 ≤ h.1.length := by
        by_contra hshort
        have hnul : (0 : Byte) ∈ (h.1 ++ 0 :: beyond).take (2 * 20) := by
          rw [List.take_append, List.mem_append,
            show 2 * 20 - h.1.length = (39 - h.1.length) + 1 by omega, List.take_succ_cons]
          exact .inr List.mem_cons_self
        exact absurd (hall 0 hnul) (by decide)
      refine ⟨hlong, ?_⟩
      rwa [List.take_append_of_le_length hlong] at hall
    · rintro ⟨hlong, hall⟩
      rw [List.take_append_of_le_length hlong, List.length_append]
      exact ⟨by omega, hall⟩
  refine ⟨hiff.trans hdigits, ?_⟩
  intro hex
  have hloop := hback ((hiff.trans hdigits).2 hex)
  rwa [List.take_append_of_le_length hex.1] at hloop

theorem getSha1Hex_sha1ToHex (s : Sha1) (beyond : List Byte) :
    getSha1Hex (sha1ToHex s.toList ++ 0 :: beyond) = (s.toList, true) := by
  obtain ⟨p, hp, hex⟩ := sha1ToHex_isHex s
  obtain ⟨hok, hback⟩ := getSha1Hex_memory p beyond
  rw [hp] at hok hback
  have hsame : hexOf p = sha1ToHex s.toList := by
    rw [hexOf, hp, List.take_of_length_le (by rw [sha1ToHex_length, List.Vector.toList_length])]
    refine (List.map_congr_left fun c hc => ?_).trans (List.map_id _)
    exact (sha1ToHex_digit hc).2
  apply Prod.ext
  · exact sha1ToHex_injective ((hback hex).trans hsame)
  · exact hok.2 hex

end Digits

section Calls
variable {L : Lib} {b : NameBuffer}

def NameBuffer.Ready (L : Lib) (b : NameBuffer) : Prop :=
  b.name = L.objectDirectory.length + 1 ∧ ∃ x y z, List.length z = 38 ∧
    b.base = L.objectDirectory ++ 47 :: x :: y :: 47 :: (z ++ List.replicate 18 0)

theorem NameBuffer.init_ready (L : Lib) : (NameBuffer.init L).Ready L :=
  ⟨rfl, 0, 0, List.replicate 38 0, List.length_replicate, rfl⟩

theorem NameBuffer.Ready.call (h : b.Ready L) (s : Sha1) :
    (NameBuffer.call L (some b) s).base =
        sha1FileName L s ++ List.replicate 18 0 ∧ (NameBuffer.call L (some b) s).Ready L := by
  obtain ⟨hname, x, y, z, hz, hbase⟩ := h
  have hsplit : b.base = (L.objectDirectory ++ [47]) ++
      x :: y :: 47 :: (z ++ List.replicate 18 0) := by
    rw [hbase, List.append_assoc]
    rfl
  have hplace : b.name = (L.objectDirectory ++ [47]).length := by
    rw [hname, List.length_append, List.length_singleton]
  have hover := fillName_over s x y (z ++ List.replicate 18 0) (by
    rw [List.length_append]
    omega)
  rw [List.drop_left' hz] at hover
  have hcall : (NameBuffer.call L (some b) s).base =
      sha1FileName L s ++ List.replicate 18 0 := by
    change b.base.take b.name ++ fillName s.toList (b.base.drop b.name) = _
    rw [hplace, hsplit, List.take_left, List.drop_left, hover, sha1FileName_eq]
    simp only [List.append_assoc, List.cons_append, List.nil_append]
  refine ⟨hcall, hname, ?_⟩
  have hlen : (sha1ToHex s.toList).length = 40 := by
    rw [sha1ToHex_length, List.Vector.toList_length]
  obtain ⟨x', t, hhex⟩ := List.exists_cons_of_length_eq_add_one hlen
  rw [hhex, List.length_cons] at hlen
  obtain ⟨y', t, rfl⟩ := List.exists_cons_of_length_eq_add_one (Nat.succ.inj hlen)
  refine ⟨x', y', t, by simpa using hlen, ?_⟩
  rw [hcall, sha1FileName_eq, hhex]
  simp only [List.take_succ_cons, List.take_zero, List.drop_succ_cons, List.drop_zero,
    List.append_assoc, List.cons_append, List.nil_append]

def nameCalls (L : Lib) (calls : List Sha1) : Option NameBuffer :=
  calls.foldl (fun b s => some (NameBuffer.call L b s)) none

theorem nameCalls_ready (L : Lib) (calls : List Sha1) :
    ((nameCalls L calls).getD (.init L)).Ready L := by
  induction calls using List.reverseRecOn with
  | nil => exact NameBuffer.init_ready L
  | append_singleton calls s ih =>
    have hcall := (ih.call s).2
    rw [nameCalls, List.foldl_append]
    exact hcall

/-- The buffer of `sha1_to_hex` after some calls. -/
def hexCalls (calls : List Sha1) : List Byte := calls.foldl hexCall (List.replicate 50 0)

theorem hexCall_eq (buffer : List Byte) (h : buffer.drop 40 = List.replicate 10 0) (s : Sha1) :
    hexCall buffer s = sha1ToHex s.toList ++ List.replicate 10 0 := by rw [hexCall, h]

theorem hexCalls_drop (calls : List Sha1) : (hexCalls calls).drop 40 = List.replicate 10 0 := by
  induction calls using List.reverseRecOn with
  | nil => rfl
  | append_singleton calls s ih =>
    rw [hexCalls, List.foldl_append]
    change (hexCall (hexCalls calls) s).drop 40 = _
    rw [hexCall_eq _ ih, List.drop_left' (by rw [sha1ToHex_length, List.Vector.toList_length])]

end Calls

/-- Reading digits undoes writing them, and after any calls the name of an object is the directory
and its digits, so that no two objects share one. -/
theorem hex_naming (L : Lib) :
    (∀ (s : Sha1) beyond, getSha1Hex (sha1ToHex s.toList ++ 0 :: beyond) = (s.toList, true)) ∧
    (∀ (h : CStr) beyond, ((getSha1Hex (h.1 ++ 0 :: beyond)).2 = true ↔ IsHex h) ∧
      (IsHex h → sha1ToHex (getSha1Hex (h.1 ++ 0 :: beyond)).1 = hexOf h)) ∧
    (∀ calls s, hexCall (hexCalls calls) s = sha1ToHex s.toList ++ List.replicate 10 0) ∧
    (∀ calls s, (NameBuffer.call L (nameCalls L calls) s).base =
      L.objectDirectory ++ 47 :: (sha1ToHex s.toList).take 2 ++
        47 :: (sha1ToHex s.toList).drop 2 ++ List.replicate 18 0) ∧
    ∀ calls calls' s s', (NameBuffer.call L (nameCalls L calls) s).base =
      (NameBuffer.call L (nameCalls L calls') s').base → s = s' := by
  have hname : ∀ calls s, (NameBuffer.call L (nameCalls L calls) s).base =
      sha1FileName L s ++ List.replicate 18 0 := fun calls s => ((nameCalls_ready L calls).call s).1
  refine ⟨getSha1Hex_sha1ToHex, getSha1Hex_memory, ?_, ?_, ?_⟩
  · intro calls s
    exact hexCall_eq _ (hexCalls_drop calls) s
  · intro calls s
    rw [hname, sha1FileName_eq]
  · intro calls calls' s s' h
    rw [hname, hname] at h
    exact sha1FileName_injective (List.append_cancel_right h)

end SelfGit
