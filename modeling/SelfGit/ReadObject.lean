import SelfGit.Answers

namespace SelfGit
open Foundation
set_option autoImplicit true

/-- The first buffer of `read_sha1_file`: what has been inflated, over what the stack held. -/
def firstBuffer (out stack : List Byte) : List Byte :=
  out.take 8192 ++ stack.drop (min out.length 8192)

/-- How `read_sha1_file` can end on a file, for any content of the memory it uses. -/
def ReadsAs (L : Lib) (b : List Byte)
    (x : Except Stop (Option (List Byte × Nat × List Byte))) : Prop :=
  ∃ stack : List Byte, stack.length = 8192 ∧
    match strlen (firstBuffer (L.zlib.inflate b).1 stack) with
    | none => x = .error .fault
    | some n =>
      match scanHeader ((firstBuffer (L.zlib.inflate b).1 stack).take n) with
      | none => x = .ok none
      | some (type, size) => size < 2 ^ 63 ∧ ∃ heap : List Byte, heap.length = size ∧
        x = match fillObject (L.zlib.inflate b).1 (firstBuffer (L.zlib.inflate b).1 stack) heap
            (firstInflateOk L.zlib b (L.zlib.inflate b).1 (L.zlib.inflate b).2) (n + 1) size with
          | none => .error .fault
          | some buf => .ok (some (type, size, buf))

theorem granted_malloc {r : Bool} : Granted (.malloc n) r ↔ r = true := Iff.rfl

theorem granted_memory {m : List Byte} : Granted (.memory n) m ↔ True := Iff.rfl

/-- What `inflate` gets to see of a file: the count is an `unsigned int`. -/
def inflateInput (b : List Byte) : List Byte := b.take (b.length % 2 ^ 32)

theorem inflateInput_eq (h : b.length < 2 ^ 32) : inflateInput b = b := by
  rw [inflateInput, Nat.mod_eq_of_lt h, List.take_length]

/-- With nothing in its way, `read_sha1_file` depends on the object file and on the memory. -/
theorem readSha1File_reads {fs fs' : FS} (hd : fs.dir (sha1FileName L s) = some i)
    (hp : (sha1FileName L s).length < pathMax) (h0 : fs.data i ≠ [])
    (hl : (fs.data i).length < 2 ^ 64) :
    RunsTo Granted fs (readSha1File L s) x fs' ↔
      fs' = fs ∧ ReadsAs L (inflateInput (fs.data i)) x := by
  have hpos := List.length_pos_of_ne_nil h0
  have hstat : ∀ (P : Option Stat → Prop) (Q : Prop),
      (∀ st : Stat, st.stSize.toNat = (fs.data i).length → (P (some st) ↔ Q)) →
      ((∃ r, (∃ st, r = some st ∧ st.stSize.toNat = (fs.data i).length) ∧ P r) ↔ Q) := by
    intro P Q h
    obtain ⟨st, hst⟩ := exists_stat hl
    constructor
    · rintro ⟨_, ⟨st, rfl, hst⟩, hP⟩
      exact (h st hst).1 hP
    · intro hQ
      exact ⟨_, ⟨st, rfl, hst⟩, (h st hst).2 hQ⟩
  simp only [readSha1File, runs_openRead, granted_openRead hd hp, exists_eq_left, runs_fstat,
    granted_fstat]
  apply hstat
  intro st hst
  simp only [runs_mmap, granted_mmap, hst, Nat.le_refl, hpos, and_true, exists_eq_left,
    List.take_length, runs_memory, granted_memory, runs_defined]
  rw [← inflateInput]
  generalize inflateInput (fs.data i) = b
  rw [ReadsAs, ← exists_and_left]
  apply exists_congr
  intro stack
  rw [and_left_comm (a := fs' = fs)]
  apply and_congr_right
  intro _
  simp only [firstBuffer]
  generalize (L.zlib.inflate b).1.take 8192 ++
    stack.drop (min (L.zlib.inflate b).1.length 8192) = buffer
  cases strlen buffer with
  | none => simp [and_comm]
  | some n =>
    simp only [Option.some.injEq, exists_eq_left', reduceCtorEq, false_and, or_false]
    cases scanHeader (buffer.take n) with
    | none => simp [and_comm]
    | some h =>
      simp only [runs_malloc, granted_malloc]
      constructor
      · rintro ⟨_, ⟨hsize, rfl⟩, h⟩
        obtain ⟨heap, hheap, h⟩ := by simpa only [↓reduceIte, runs_memory, granted_memory,
          and_true, runs_defined, Prog.runs_pure] using h
        rcases h with ⟨buf, hbuf, rfl, rfl⟩ | ⟨hbuf, rfl, rfl⟩
        · exact ⟨rfl, hsize rfl, heap, hheap, by rw [hbuf]⟩
        · exact ⟨rfl, hsize rfl, heap, hheap, by rw [hbuf]⟩
      · rintro ⟨hfs, hsize, heap, hheap, rfl⟩
        subst fs'
        refine ⟨true, ⟨fun _ => hsize, rfl⟩, ?_⟩
        simp only [↓reduceIte, runs_memory, granted_memory, and_true, runs_defined,
          Prog.runs_pure]
        refine ⟨heap, hheap, ?_⟩
        cases fillObject (L.zlib.inflate b).1 buffer heap (firstInflateOk L.zlib b
            (L.zlib.inflate b).1 (L.zlib.inflate b).2) (n + 1) h.2 with
        | none => simp
        | some buf => simp

/-- The bytes of an object before compression. -/
def objectBytes (type content : List Byte) : List Byte :=
  type ++ 32 :: numeral 10 content.length ++ 0 :: content

/-- A tag that `%10s` reads back. -/
structure Tag (type : List Byte) : Prop where
  ne : type ≠ []
  short : type.length ≤ 10
  blank : ∀ c ∈ type, isSpace c = false
  nul : 0 ∉ type

theorem scanHeader_numeral (ht : Tag type) (hn : n < 2 ^ 64) :
    scanHeader (type ++ 32 :: numeral 10 n) = some (type, n) := by
  have hw := scanWord_append type (numeral 10 n) ht.ne ht.blank ht.short
  have hu := scanUnsigned_numeral (b := 10) (by decide) (by decide) hn [] (by simp)
  have hs : scanUnsigned 10 (32 :: numeral 10 n) = scanUnsigned 10 (numeral 10 n) := by
    simp [scanUnsigned, isSpace]
  rw [List.append_nil] at hu
  simp only [scanHeader, hw, Option.bind_eq_bind, Option.bind_some, hs, hu]

theorem firstBuffer_header (hh : hdr.length < 8192) (d stack : List Byte) :
    firstBuffer (hdr ++ 0 :: d) stack = hdr ++ 0 :: (d.take (8191 - hdr.length) ++
      stack.drop (min (hdr.length + (d.length + 1)) 8192)) := by
  have hs : 8192 - hdr.length = 8191 - hdr.length + 1 := by omega
  rw [firstBuffer, List.take_append, List.take_of_length_le (by omega), hs,
    List.take_succ_cons, List.length_append, List.length_cons, List.append_assoc,
    List.cons_append]

def firstPart (hdr d : List Byte) : Nat := min d.length (8191 - hdr.length)

/-- The block in general: the tail of the first buffer, what the stream goes on with, and the rest.
-/
theorem fillObject_parts (hh : hdr.length < 8192) (d stack heap : List Byte) (ok : Bool)
    (size : Nat) : fillObject (hdr ++ 0 :: d) (firstBuffer (hdr ++ 0 :: d) stack) heap ok
      (hdr.length + 1) size =
    if size < firstPart hdr d then none
    else if firstPart hdr d < size ∧ ok = true then
      some (d.take (firstPart hdr d) ++
        (d.drop (firstPart hdr d)).take ((size - firstPart hdr d) % 2 ^ 32) ++
        heap.drop (firstPart hdr d + ((d.drop (firstPart hdr d)).take
          ((size - firstPart hdr d) % 2 ^ 32)).length))
    else some (d.take (firstPart hdr d) ++ heap.drop (firstPart hdr d)) := by
  have hout : (hdr ++ 0 :: d).length = hdr.length + (d.length + 1) := by simp
  obtain ⟨m, hm⟩ : ∃ m, m = firstPart hdr d := ⟨_, rfl⟩
  have hle : m = min d.length (8191 - hdr.length) := hm
  have htotal : min (hdr ++ 0 :: d).length 8192 = hdr.length + 1 + m := by
    rw [hout]
    omega
  have hcopy : ((firstBuffer (hdr ++ 0 :: d) stack).drop (hdr.length + 1)).take m =
      d.take m := by
    rw [firstBuffer_header hh, List.drop_append, List.drop_eq_nil_of_le (by omega),
      show hdr.length + 1 - hdr.length = 1 by omega, List.drop_succ_cons, List.drop_zero,
      List.nil_append, List.take_append_of_le_length (by rw [List.length_take]; omega),
      List.take_take]
    congr 1
    omega
  have hrest : (hdr ++ 0 :: d).drop (hdr.length + 1 + m) = d.drop m := by
    rw [List.drop_append, List.drop_eq_nil_of_le (by omega), List.nil_append,
      show hdr.length + 1 + m - hdr.length = m + 1 by omega, List.drop_succ_cons]
  have htake : (d.take m).length = m := by
    rw [List.length_take]
    omega
  rw [← hm, fillObject]
  simp only [htotal, hrest, Nat.add_sub_cancel_left, hcopy]
  have hcond : (hdr.length + 1 + m < hdr.length + 1 ∨ size < m) ↔ size < m := by omega
  simp only [hcond]
  split
  · rfl
  · split
    · generalize (d.drop m).take ((size - m) % 2 ^ 32) = more
      rw [List.take_left' htake, List.drop_append, List.drop_eq_nil_of_le (by omega),
        List.nil_append, htake, List.drop_drop, show m + (m + more.length - m) = m + more.length
        by omega]
    · rfl

theorem fillObject_eq (hh : hdr.length < 8192) (d stack heap : List Byte)
    (hd : d.length ≤ heap.length) (hl : heap.length < 2 ^ 32)
    (hok : ok = true ∨ d.length = heap.length ∧ d.length ≤ 8191 - hdr.length) :
    fillObject (hdr ++ 0 :: d) (firstBuffer (hdr ++ 0 :: d) stack) heap ok (hdr.length + 1)
      heap.length = some (d ++ heap.drop d.length) := by
  rw [fillObject_parts hh]
  obtain ⟨m, hm⟩ : ∃ m, m = firstPart hdr d := ⟨_, rfl⟩
  have hle : m = min d.length (8191 - hdr.length) := hm
  rw [← hm, if_neg (by omega)]
  split
  · have hmore : (d.drop m).take ((heap.length - m) % 2 ^ 32) = d.drop m := by
      apply List.take_of_length_le
      rw [List.length_drop, Nat.mod_eq_of_lt (by omega)]
      omega
    rw [hmore, List.take_append_drop, List.length_drop,
      show m + (d.length - m) = d.length by omega]
  · rename_i hstop
    have hfull : m = d.length := by
      rcases hok with hok | ⟨h1, h2⟩
      · rw [hok] at hstop
        simp only [and_true] at hstop
        omega
      · omega
    rw [hfull, List.take_length]

theorem Tag.header (ht : Tag type) (hn : n < 2 ^ 64) :
    (type ++ 32 :: numeral 10 n).length < 8192 ∧ 0 ∉ type ++ 32 :: numeral 10 n := by
  have hs := ht.short
  have hl := numeral_length_le (b := 10) (k := 20) (n := n) (by decide) (by decide) (by omega)
  refine ⟨by rw [List.length_append, List.length_cons]; omega, ?_⟩
  intro h0
  rw [List.mem_append, List.mem_cons] at h0
  rcases h0 with h0 | h0 | h0
  · exact ht.nul h0
  · exact absurd h0 (by decide)
  · exact digit_ne_zero (numeral_digit (by decide) (by decide) h0) rfl

theorem firstInflateOk_needMore (z : Zlib) (map out : List Byte) :
    firstInflateOk z map out .needMore = true := by
  simp [firstInflateOk]

theorem readsAs_header (ht : Tag type) (hn : n < 2 ^ 32)
    (hinf : (L.zlib.inflate b).1 = type ++ 32 :: numeral 10 n ++ 0 :: d) (hd : d.length ≤ n)
    (hmore : d.length = n ∨ (L.zlib.inflate b).2 = .needMore) :
    ReadsAs L b x ↔ ∃ heap : List Byte, heap.length = n ∧
      x = .ok (some (type, n, d ++ heap.drop d.length)) := by
  obtain ⟨hlen, hnul⟩ := ht.header (show n < 2 ^ 64 by omega)
  have hstr : ∀ stack, strlen (firstBuffer (type ++ 32 :: numeral 10 n ++ 0 :: d) stack) =
      some (type ++ 32 :: numeral 10 n).length := by
    intro stack
    rw [firstBuffer_header hlen, strlen_append _ _ hnul]
  have hscan : ∀ stack, scanHeader ((firstBuffer (type ++ 32 :: numeral 10 n ++ 0 :: d) stack).take
      (type ++ 32 :: numeral 10 n).length) = some (type, n) := by
    intro stack
    rw [firstBuffer_header hlen, List.take_left, scanHeader_numeral ht (by omega)]
  have hok : firstInflateOk L.zlib b (type ++ 32 :: numeral 10 n ++ 0 :: d)
      (L.zlib.inflate b).2 = true ∨
        d.length = n ∧ d.length ≤ 8191 - (type ++ 32 :: numeral 10 n).length := by
    rcases hmore with hfull | hmore
    · by_cases hlong : d.length ≤ 8191 - (type ++ 32 :: numeral 10 n).length
      · exact .inr ⟨hfull, hlong⟩
      · left
        rw [firstInflateOk, if_pos]
        rw [List.length_append, List.length_cons]
        omega
    · left
      rw [hmore, firstInflateOk_needMore]
  have hfill : ∀ stack heap : List Byte, heap.length = n → fillObject
      (type ++ 32 :: numeral 10 n ++ 0 :: d)
      (firstBuffer (type ++ 32 :: numeral 10 n ++ 0 :: d) stack) heap
      (firstInflateOk L.zlib b (type ++ 32 :: numeral 10 n ++ 0 :: d) (L.zlib.inflate b).2)
      ((type ++ 32 :: numeral 10 n).length + 1) n = some (d ++ heap.drop d.length) := by
    intro stack heap hheap
    subst n
    exact fillObject_eq hlen d stack heap hd hn hok
  simp only [ReadsAs, hinf, hstr, hscan]
  constructor
  · rintro ⟨stack, -, -, heap, hheap, rfl⟩
    exact ⟨heap, hheap, by rw [hfill stack heap hheap]⟩
  · rintro ⟨heap, hheap, rfl⟩
    refine ⟨List.replicate 8192 0, List.length_replicate, by omega, heap, hheap, ?_⟩
    rw [hfill _ heap hheap]

theorem readsAs_object (ht : Tag type) (hn : content.length < 2 ^ 32)
    (hinf : (L.zlib.inflate b).1 = objectBytes type content) :
    ReadsAs L b x ↔ x = .ok (some (type, content.length, content)) := by
  rw [readsAs_header ht hn hinf (Nat.le_refl _) (.inl rfl)]
  constructor
  · rintro ⟨heap, hheap, rfl⟩
    rw [← hheap, List.drop_length, List.append_nil]
  · rintro rfl
    exact ⟨content, rfl, by rw [List.drop_length, List.append_nil]⟩

theorem readsAs_no_nul (h0 : 0 ∉ (L.zlib.inflate b).1.take 8192) :
    ReadsAs L b (.error .fault) := by
  have hb : strlen (firstBuffer (L.zlib.inflate b).1 (List.replicate 8192 1)) = none := by
    rw [strlen_eq_none, firstBuffer, List.mem_append, not_or]
    refine ⟨h0, fun h => ?_⟩
    have := List.eq_of_mem_replicate (List.mem_of_mem_drop h)
    exact absurd this (by decide)
  refine ⟨List.replicate 8192 1, List.length_replicate, ?_⟩
  rw [hb]

theorem readsAs_cut (ht : Tag type) (hn : content.length < 2 ^ 32)
    (hpre : (L.zlib.inflate b).1 <+: objectBytes type content)
    (hne : (L.zlib.inflate b).1 ≠ objectBytes type content)
    (hmore : (L.zlib.inflate b).2 = .needMore) :
    ∃ x, ReadsAs L b x ∧ x ≠ .ok (some (type, content.length, content)) := by
  obtain ⟨hlen, hnul⟩ := ht.header (show content.length < 2 ^ 64 by omega)
  by_cases h0 : 0 ∈ (L.zlib.inflate b).1
  · obtain ⟨d, hout, hd⟩ : ∃ d, (L.zlib.inflate b).1 =
        type ++ 32 :: numeral 10 content.length ++ 0 :: d ∧ d <+: content := by
      rcases List.prefix_or_prefix_of_prefix hpre (List.prefix_append _ _) with hshort | ⟨t, ht'⟩
      · exact absurd (hshort.subset h0) hnul
      · rw [← ht', objectBytes, List.prefix_append_right_inj] at hpre
        cases t with
        | nil =>
          rw [← ht', List.append_nil] at h0
          exact absurd h0 hnul
        | cons z d =>
          obtain ⟨rfl, hd⟩ := List.cons_prefix_cons.1 hpre
          exact ⟨d, ht'.symm, hd⟩
    have hlt : d.length < content.length := by
      apply Nat.lt_of_le_of_ne hd.length_le
      intro he
      rw [hd.eq_of_length he] at hout
      exact hne hout
    refine ⟨_, (readsAs_header ht hn hout (Nat.le_of_lt hlt) (.inr hmore)).2
      ⟨content.map (· + 1), List.length_map _, rfl⟩, ?_⟩
    intro he
    simp only [Except.ok.injEq, Option.some.injEq, Prod.mk.injEq, true_and] at he
    have hget := congrArg (fun l => l[d.length]?) he
    simp only [List.getElem?_append_right (Nat.le_refl _), Nat.sub_self, List.getElem?_drop,
      Nat.add_zero, List.getElem?_map, List.getElem?_eq_getElem hlt, Option.map_some,
      Option.some.injEq] at hget
    exact absurd hget (by simp)
  · exact ⟨.error .fault, readsAs_no_nul fun h => h0 (List.mem_of_mem_take h), by simp⟩

theorem Zlib.Lossless.inflate_take {z : Zlib} (h : z.Lossless) (ps : List (List Byte)) (k : Nat) :
    (z.inflate ((z.deflate ps).take k)).1 <+: ps.flatten ∧
      ((z.inflate ((z.deflate ps).take k)).1 ≠ ps.flatten →
        (z.inflate ((z.deflate ps).take k)).2 = .needMore) := by
  by_cases hk : k < (z.deflate ps).length
  · exact ⟨(h.cut ps k hk).1, fun _ => (h.cut ps k hk).2⟩
  · rw [List.take_of_length_le (by omega), h.inverse]
    exact ⟨List.prefix_refl _, fun hne => absurd rfl hne⟩

/-- Of the first `k` bytes of the stream the object is read back if and only if they inflate to it.
-/
theorem readSha1File_input {fs : FS} (hz : L.zlib.Lossless) (ht : Tag type)
    (hn : content.length < 2 ^ 32) (hps : ps.flatten = objectBytes type content)
    (hd : fs.dir (sha1FileName L s) = some i) (hp : (sha1FileName L s).length < pathMax)
    (hl : (fs.data i).length < 2 ^ 64)
    (hi : inflateInput (fs.data i) = (L.zlib.deflate ps).take k) :
    (∀ x fs', RunsTo Granted fs (readSha1File L s) x fs' ↔
      fs' = fs ∧ x = .ok (some (type, content.length, content))) ↔
    (L.zlib.inflate ((L.zlib.deflate ps).take k)).1 = objectBytes type content := by
  obtain ⟨hpre, hmore⟩ := hz.inflate_take ps k
  rw [hps] at hpre hmore
  by_cases h0 : fs.data i = []
  · have hno : ∀ x fs', ¬ RunsTo Granted fs (readSha1File L s) x fs' := by
      intro x fs' h
      simp only [readSha1File, runs_openRead, granted_openRead hd hp, exists_eq_left, runs_fstat,
        granted_fstat, h0, List.length_nil] at h
      obtain ⟨_, ⟨st, rfl, hst⟩, h⟩ := h
      simp only [runs_mmap, granted_mmap, hst, Nat.lt_irrefl, and_false, false_and,
        exists_false] at h
    have hempty : (L.zlib.inflate ((L.zlib.deflate ps).take k)).1 = [] := by
      rw [← hi, h0, inflateInput, List.take_nil, ← List.take_zero (l := L.zlib.deflate [])]
      exact List.prefix_nil.1 (hz.inflate_take [] 0).1
    constructor
    · intro h
      exact absurd ((h _ fs).2 ⟨rfl, rfl⟩) (hno _ _)
    · intro h
      rw [hempty] at h
      simp [objectBytes] at h
  · simp only [readSha1File_reads hd hp h0 hl, hi]
    constructor
    · intro h
      by_contra hne
      obtain ⟨x, hx, hxne⟩ := readsAs_cut ht hn hpre hne (hmore hne)
      exact hxne ((h x fs).1 ⟨rfl, hx⟩).2
    · intro h x fs'
      rw [readsAs_object ht hn h]

/-- Of a file with the first `k` bytes the object is read back if and only if they inflate to it. -/
theorem readSha1File_stored {fs : FS} (hz : L.zlib.Lossless) (ht : Tag type)
    (hn : content.length < 2 ^ 32) (hps : ps.flatten = objectBytes type content)
    (hk : k < 2 ^ 32) (hd : fs.dir (sha1FileName L s) = some i)
    (hp : (sha1FileName L s).length < pathMax)
    (hi : fs.data i = (L.zlib.deflate ps).take k) :
    (∀ x fs', RunsTo Granted fs (readSha1File L s) x fs' ↔
      fs' = fs ∧ x = .ok (some (type, content.length, content))) ↔
    (L.zlib.inflate ((L.zlib.deflate ps).take k)).1 = objectBytes type content := by
  have hl : (fs.data i).length < 2 ^ 32 := by
    rw [hi, List.length_take]
    omega
  exact readSha1File_input hz ht hn hps hd hp (by omega) (by rw [inflateInput_eq hl, hi])

end SelfGit
