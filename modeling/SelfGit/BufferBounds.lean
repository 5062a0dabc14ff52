import SelfGit.CommitBuffer

namespace SelfGit
open Foundation
set_option autoImplicit true

/-- After each of the texts the size is within the block, and the copy was. -/
def StaysInBlock (texts : List (List Byte)) : Prop :=
  ∀ n, ∃ b, (texts.take n).foldlM addBuffer initBuffer = some b ∧ b.size ≤ b.block ∧
    b.inside = true

theorem Buffer.Roomy.size_le (h : Buffer.Roomy b text) : b.size ≤ b.block := by
  have hfits := h.fits
  have hmod := Nat.mod_le (origOffset + text.length) (2 ^ 32)
  rw [h.tight.size, h.block]
  omega

theorem flatten_take_le (texts : List (List Byte)) (n : Nat) :
    (texts.take n).flatten.length ≤ texts.flatten.length := by
  rw [← List.take_append_drop n texts, List.flatten_append, List.length_append,
    List.take_append_drop]
  omega

/-- The first block is for 16384 bytes and is not replaced before 32768 are reached, so short texts
stay inside if and only if together they go into the first. -/
theorem buffer_stays_inside {texts : List (List Byte)} (ht : ∀ t ∈ texts, t.length < 2048) :
    StaysInBlock texts ↔ origOffset + texts.flatten.length ≤ blocking := by
  constructor
  · intro h
    obtain ⟨b, hb, -, hin⟩ := h texts.length
    rw [List.take_length] at hb
    have hfits := ((addBuffers_iff texts initBuffer_roomy).1 ⟨b, hb, hin⟩).2
    rwa [lineTexts_short ht] at hfits
  · intro hfits n
    have hle := flatten_take_le texts n
    have hshort : ∀ t ∈ texts.take n, t.length < 2048 := fun t hmem =>
      ht t (List.mem_of_mem_take hmem)
    obtain ⟨b, hb, hroomy⟩ := addBuffers_roomy (texts.take n) initBuffer_roomy
      (fun t hmem => Nat.le_of_lt (hshort t hmem))
      (by rw [List.nil_append, lineTexts_short hshort]; omega)
    exact ⟨b, hb, hroomy.size_le, hroomy.inside⟩

theorem buffer_stays_inside_three :
    StaysInBlock [str "tree 0123456789\n", str "author U <u@h> now\n", str "\n"] :=
  (buffer_stays_inside (by decide)).2 (by decide)

/-- Nine lines of 2000 bytes leave the block, which has not grown. -/
theorem buffer_outgrows_block : ¬ ∀ texts : List (List Byte), (∀ t ∈ texts, t.length < 2048) →
    StaysInBlock texts := by
  intro hall
  obtain ⟨line, hline⟩ : ∃ line : List Byte, line.length = 2000 :=
    ⟨List.replicate 2000 120, List.length_replicate⟩
  have hinside := hall (List.replicate 9 line) (by
    intro t hmem
    rw [List.eq_of_mem_replicate hmem, hline]
    decide)
  obtain ⟨b, hb, -, hin⟩ := hinside 9
  have hfits := ((addBuffers_iff _ initBuffer_roomy).1 ⟨b, hb, hin⟩).2
  rw [List.nil_append, lineTexts_short fun t hmem => by
    rw [List.eq_of_mem_replicate (List.mem_of_mem_take hmem), hline]; decide,
    List.take_replicate, List.length_flatten, List.map_replicate, hline,
    List.sum_replicate] at hfits
  exact absurd hfits (by decide)

/-- All bytes copied have been written by `vsnprintf`, and make up the whole text. -/
structure Appends (b : Buffer) (text : List Byte) : Prop where
  copied : copiedLine text = some (text.map some)
  appended : ∃ b', addBuffer b text = some b' ∧
    b'.mem.take (b.size + text.length) = b.mem.take b.size ++ text

theorem copiedLine_iff (text : CStr) :
    copiedLine text.1 = some (text.1.map some) ↔ text.1.length < 2048 := by
  constructor
  · intro h
    by_contra hlong
    rw [copiedLine_eq] at h
    split at h
    · -- the last byte copied is the NUL, and the text has none
      rw [lineText, if_neg hlong, Option.some.injEq] at h
      have hsame := List.map_injective_iff.2 (Option.some_injective Byte) h
      exact text.2 (hsame ▸ List.mem_append_right _ List.mem_cons_self)
    · cases h
  · exact copiedLine_short

theorem addBuffer_reaches (h : addBuffer b text = some b') (hb : b.size ≤ b.mem.length) :
    b'.size ≤ b'.mem.length ∧
      b'.mem.take (b.size + text.length) = b.mem.take b.size ++ lineText text := by
  have hround := roundUp_ge (b.size + text.length)
  rw [addBuffer, copiedLine_eq] at h
  split at h
  · rename_i hcopied
    have hline := lineText_length hcopied
    rw [Option.bind_eq_bind, Option.bind_some, known_bytes, Option.bind_eq_bind,
      Option.bind_some] at h
    obtain ⟨mem, hmem⟩ : ∃ mem, mem = if b.size + text.length > roundUp b.size then
      b.mem.take (if b.size + text.length > roundUp b.size then roundUp (b.size + text.length)
        else b.block) else b.mem := ⟨_, rfl⟩
    have hfront : mem.take b.size = b.mem.take b.size := by
      rw [hmem]
      split
      · rw [List.take_take, Nat.min_eq_left (by omega)]
      · rfl
    have hlen : (b.mem.take b.size).length = b.size := by
      rw [List.length_take]
      omega
    simp only [← hmem, Option.some.injEq] at h
    rw [← h]
    simp only [hfront]
    constructor
    · have hmod := Nat.mod_le (b.size + text.length) (2 ^ 32)
      simp only [List.length_append, hlen, hline]
      omega
    · rw [List.take_left']
      rw [List.length_append, hlen, hline]
  · cases h

theorem addBuffers_reach {texts : List (List Byte)} (h : texts.foldlM addBuffer b = some b')
    (hb : b.size ≤ b.mem.length) : b'.size ≤ b'.mem.length := by
  induction texts generalizing b with
  | nil =>
    cases h
    exact hb
  | cons t texts ih =>
    rw [List.foldlM_cons, Option.bind_eq_bind, Option.bind_eq_some_iff] at h
    obtain ⟨b₁, h₁, h⟩ := h
    exact ih h (addBuffer_reaches h₁ hb).1

/-- To any buffer there can be, a text is appended as it is if and only if it has fewer than 2048
bytes. -/
theorem text_appended {texts : List (List Byte)} (hb : texts.foldlM addBuffer initBuffer = some b)
    (text : CStr) : Appends b text.1 ↔ text.1.length < 2048 := by
  constructor
  · intro h
    exact (copiedLine_iff text).1 h.copied
  · intro hlt
    obtain ⟨b', h⟩ : ∃ b', addBuffer b text.1 = some b' := by
      rw [addBuffer, copiedLine_short hlt, Option.bind_eq_bind, Option.bind_some, known_bytes]
      exact ⟨_, rfl⟩
    have happ := (addBuffer_reaches h (addBuffers_reach hb (by decide))).2
    rw [lineText_short hlt] at happ
    exact ⟨(copiedLine_iff text).2 hlt, b', h, happ⟩

theorem text_appended_first : Appends initBuffer (cstr "tree 0123456789").1 := by
  have hb : ([] : List (List Byte)).foldlM addBuffer initBuffer = some initBuffer := rfl
  exact (text_appended hb (cstr "tree 0123456789")).2 (by decide)

/-- The author's name takes 3000 bytes. -/
theorem long_name_overread : ¬ ∀ (texts : List (List Byte)) b (author : Person),
    texts.foldlM addBuffer initBuffer = some b →
    Appends b (signatureLine (str "author ") author.cleaned) := by
  intro hall
  have happ := hall [] initBuffer
    ⟨⟨List.replicate 3000 120, by rw [List.mem_replicate]; decide⟩, cstr "e", cstr "d"⟩ rfl
  have hcopied := happ.copied
  rw [copiedLine, oneLine_length, if_neg] at hcopied
  · cases hcopied
  · have hname : clean (List.replicate 3000 120) = List.replicate 3000 120 := by
      rw [clean, List.filter_replicate, if_pos (by decide)]
    simp only [signatureLine, Person.cleaned, hname, List.length_append, List.length_replicate]
    omega

end SelfGit
