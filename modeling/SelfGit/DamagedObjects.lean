import SelfGit.ExactReading
import SelfGit.Processes

namespace SelfGit
open Foundation
set_option autoImplicit true

/-- A null pointer, or as many bytes as `*size` says that the stream holds behind its header. -/
def Produced (out : List Byte) (x : Except Stop (Option (List Byte × Nat × List Byte))) : Prop :=
  x = .ok none ∨ ∃ type size buf hdr, x = .ok (some (type, size, buf)) ∧ buf.length = size ∧
    0 ∉ hdr ∧ hdr ++ 0 :: buf <+: out

/-- Whatever the memory holds, nothing but inflated bytes comes out of the file. -/
def DamageRejected (L : Lib) (b : List Byte) : Prop :=
  ∀ (fs : FS) s i x fs', fs.dir (sha1FileName L s) = some i → fs.data i = b →
    RunsTo anyAnswer fs (readSha1File L s) x fs' →
      Produced (L.zlib.inflate (inflateInput b)).1 x

/-- The size is no less than what the first buffer holds behind the header, and no more than what
the stream does, of which the rest is asked for in 32 bits. -/
def SizeAgrees (out : List Byte) (n size : Nat) : Prop :=
  min out.length 8192 - (n + 1) ≤ size ∧ size ≤ out.length - (n + 1) ∧
    size - (min out.length 8192 - (n + 1)) < 2 ^ 32

/-- The inflated bytes have a header in the first buffer, and if it scans, the size it declares is
more than there can be memory, or agrees with the data. -/
def HeaderAgrees (out : List Byte) : Prop :=
  ∃ n, strlen (out.take 8192) = some n ∧
    ∀ type size, scanHeader (out.take n) = some (type, size) →
      2 ^ 63 ≤ size ∨ SizeAgrees out n size

/-- Whatever the answers, `read_sha1_file` gives up or ends as it would with nothing in its way. -/
theorem readSha1File_outcome {ok : (o : Op) → o.Res → Prop} {fs fs' : FS}
    (hd : fs.dir (sha1FileName L s) = some i)
    (h : RunsTo ok fs (readSha1File L s) x fs') :
    x = .ok none ∨ (sha1FileName L s).length < pathMax ∧ fs.data i ≠ [] ∧
      ReadsAs L (inflateInput (fs.data i)) x := by
  simp only [readSha1File, runs_openRead] at h
  obtain ⟨r, ⟨hopen, -⟩, h⟩ := h
  cases r with
  | error e => exact .inl (Prog.runs_pure.1 h).1
  | ok fd =>
    obtain ⟨hshort, rfl⟩ := FS.opened_ok hd hopen
    simp only [runs_fstat] at h
    obtain ⟨r, ⟨hstat, -⟩, h⟩ := h
    cases r with
    | none => exact .inl (Prog.runs_pure.1 h).1
    | some st =>
      have hsize := FS.statted_ok hstat
      simp only [runs_mmap] at h
      obtain ⟨r, ⟨hmap, -⟩, h⟩ := h
      cases r with
      | none => exact .inl (Prog.runs_pure.1 h).1
      | some m =>
        obtain ⟨rfl, -, hpos⟩ := FS.mapped_ok hmap
        have hne : fs.data i ≠ [] := List.ne_nil_of_length_pos (by omega)
        simp only [hsize, List.take_length, runs_memory, runs_defined] at h
        obtain ⟨stack, ⟨hstack, -⟩, h⟩ := h
        rw [← inflateInput, ← firstBuffer] at h
        generalize inflateInput (fs.data i) = b at h ⊢
        refine Or.imp_right (fun hx => ⟨hshort, hne, stack, hstack, hx⟩) ?_
        rcases h with ⟨n, hn, h⟩ | ⟨hn, rfl, -⟩
        · rw [hn]
          simp only
          cases hscan : scanHeader ((firstBuffer (L.zlib.inflate b).1 stack).take n) with
          | none =>
            rw [hscan] at h
            exact .inl (Prog.runs_pure.1 h).1
          | some hdr =>
            simp only [hscan, runs_malloc] at h
            obtain ⟨got, ⟨hgot, -⟩, h⟩ := h
            cases got with
            | false => exact .inl (Prog.runs_pure.1 h).1
            | true =>
              simp only [↓reduceIte, runs_memory, runs_defined] at h
              obtain ⟨heap, ⟨hheap, -⟩, h⟩ := h
              refine .inr ⟨hgot rfl, heap, hheap, ?_⟩
              rcases h with ⟨buf, hbuf, h⟩ | ⟨hbuf, rfl, -⟩
              · rw [hbuf]
                exact (Prog.runs_pure.1 h).1
              · rw [hbuf]
        · rw [hn]
          exact .inr rfl

theorem header_split {out : List Byte} (h : strlen (out.take 8192) = some n) :
    ∃ hdr d, out = hdr ++ 0 :: d ∧ 0 ∉ hdr ∧ hdr.length = n ∧ n < 8192 := by
  obtain ⟨t, ht, h0, hlt⟩ := strlen_spec h
  rw [List.length_take] at hlt
  refine ⟨(out.take 8192).take n, t ++ out.drop 8192, ?_, h0, ?_, by omega⟩
  · rw [← List.cons_append, ← List.append_assoc, ← ht, List.take_append_drop]
  · rw [List.length_take, List.length_take]
    omega

section Split
variable {hdr d : List Byte} {b : List Byte} {L : Lib}

theorem readsAs_split (hinf : (L.zlib.inflate b).1 = hdr ++ 0 :: d) (h0 : 0 ∉ hdr)
    (hh : hdr.length < 8192) : ReadsAs L b x ↔ ∃ stack : List Byte, stack.length = 8192 ∧
      match scanHeader hdr with
      | none => x = .ok none
      | some (type, size) => size < 2 ^ 63 ∧ ∃ heap : List Byte, heap.length = size ∧
        x = match fillObject (hdr ++ 0 :: d) (firstBuffer (hdr ++ 0 :: d) stack) heap
            (firstInflateOk L.zlib b (hdr ++ 0 :: d) (L.zlib.inflate b).2) (hdr.length + 1)
            size with
          | none => .error .fault
          | some buf => .ok (some (type, size, buf)) := by
  have hstr : ∀ stack, strlen (firstBuffer (hdr ++ 0 :: d) stack) = some hdr.length := by
    intro stack
    rw [firstBuffer_header hh, strlen_append _ _ h0]
  have htake : ∀ stack, (firstBuffer (hdr ++ 0 :: d) stack).take hdr.length = hdr := by
    intro stack
    rw [firstBuffer_header hh, List.take_left]
  constructor
  · intro h
    simp only [ReadsAs, hinf, hstr, htake] at h
    exact h
  · intro h
    simp only [ReadsAs, hinf, hstr, htake]
    exact h

theorem sizeAgrees_iff (hh : hdr.length < 8192) :
    SizeAgrees (hdr ++ 0 :: d) hdr.length size ↔
      firstPart hdr d ≤ size ∧ size ≤ d.length ∧ size - firstPart hdr d < 2 ^ 32 := by
  have hlen : (hdr ++ 0 :: d).length = hdr.length + 1 + d.length := by
    rw [List.length_append, List.length_cons]
    omega
  have hpart : min (hdr.length + 1 + d.length) 8192 - (hdr.length + 1) = firstPart hdr d := by
    rw [firstPart]
    generalize hdr.length = a at hh ⊢
    generalize d.length = e
    omega
  rw [SizeAgrees, hlen, hpart, Nat.add_sub_cancel_left]

theorem reach_eq_size {m e size : Nat} (hlt : m < size) :
    m + min ((size - m) % 2 ^ 32) (e - m) = size ↔
      m ≤ size ∧ size ≤ e ∧ size - m < 2 ^ 32 := by
  omega

/-- A block that is not overrun starts with some of the data, and all of it if the size agrees. -/
theorem fillObject_front (hh : hdr.length < 8192)
    (hok : 8192 < (hdr ++ 0 :: d).length → ok = true) (hle : firstPart hdr d ≤ size) :
    ∃ u ≤ size, u ≤ d.length ∧
      (u = size ↔ SizeAgrees (hdr ++ 0 :: d) hdr.length size) ∧
      ∀ stack heap : List Byte, fillObject (hdr ++ 0 :: d) (firstBuffer (hdr ++ 0 :: d) stack) heap
        ok (hdr.length + 1) size = some (d.take u ++ heap.drop u) := by
  rw [sizeAgrees_iff hh]
  obtain ⟨m, hm⟩ : ∃ m, m = firstPart hdr d := ⟨_, rfl⟩
  have hmin : m = min d.length (8191 - hdr.length) := hm
  have hmd : m ≤ d.length := hmin ▸ Nat.min_le_left _ _
  rw [← hm] at hle ⊢
  by_cases hmore : m < size ∧ ok = true
  · refine ⟨m + min ((size - m) % 2 ^ 32) (d.length - m), ?_, by omega,
      reach_eq_size hmore.1, ?_⟩
    · have := Nat.mod_le (size - m) (2 ^ 32)
      omega
    · intro stack heap
      rw [fillObject_parts hh, ← hm, if_neg (by omega), if_pos hmore, List.length_take,
        List.length_drop, ← List.take_add]
      congr 2
      rw [Nat.min_def]
      split
      · rfl
      · rw [List.take_of_length_le (by omega), List.take_of_length_le (by omega)]
  · refine ⟨m, hle, hmd, ⟨fun h => ⟨hle, h ▸ hmd, by omega⟩, ?_⟩, ?_⟩
    · -- otherwise there would be more to inflate, and it would be asked for
      rintro ⟨-, hsize, -⟩
      by_contra hne
      have hlong : 8192 < (hdr ++ 0 :: d).length := by
        rw [List.length_append, List.length_cons]
        generalize hdr.length = a at hmin ⊢
        generalize d.length = e at hmin hsize ⊢
        omega
      exact hmore ⟨by omega, hok hlong⟩
    · intro stack heap
      rw [fillObject_parts hh, ← hm, if_neg (by omega), if_neg hmore]

end Split

theorem firstInflateOk_long (z : Zlib) (map : List Byte) (fin : InflateEnd)
    (h : 8192 < out.length) : firstInflateOk z map out fin = true := by
  rw [firstInflateOk, if_pos h]

theorem HeaderAgrees.produced (h : HeaderAgrees (L.zlib.inflate b).1) (hx : ReadsAs L b x) :
    Produced (L.zlib.inflate b).1 x := by
  obtain ⟨n, hn, hsize⟩ := h
  obtain ⟨hdr, d, hinf, h0, rfl, hh⟩ := header_split hn
  have htake : (L.zlib.inflate b).1.take hdr.length = hdr := by rw [hinf, List.take_left]
  rw [htake, hinf] at hsize
  rw [readsAs_split hinf h0 hh] at hx
  obtain ⟨stack, -, hx⟩ := hx
  rw [hinf]
  cases hscan : scanHeader hdr with
  | none =>
    rw [hscan] at hx
    exact .inl hx
  | some ts =>
    obtain ⟨type, size⟩ := ts
    simp only [hscan] at hx
    obtain ⟨hlt, heap, hheap, rfl⟩ := hx
    have hagree := (hsize type size hscan).resolve_left (by omega)
    obtain ⟨u, -, hud, hu, hfill⟩ := fillObject_front hh
      (firstInflateOk_long L.zlib b (L.zlib.inflate b).2) ((sizeAgrees_iff hh).1 hagree).1
    obtain rfl := hu.2 hagree
    rw [hfill stack heap, List.drop_of_length_le (Nat.le_of_eq hheap), List.append_nil]
    refine .inr ⟨type, u, d.take u, hdr, rfl, ?_, h0, ?_⟩
    · rw [List.length_take, Nat.min_eq_left hud]
    · rw [List.prefix_append_right_inj, List.cons_prefix_cons]
      exact ⟨rfl, List.take_prefix _ _⟩

def unlike (d : List Byte) (size : Nat) : List Byte :=
  (List.range size).map fun j => d.getD j 0 + 1

theorem HeaderAgrees.of_produced
    (h : ∀ x, ReadsAs L b x → Produced (L.zlib.inflate b).1 x) :
    HeaderAgrees (L.zlib.inflate b).1 := by
  have hfault : ¬ ReadsAs L b (.error .fault) := by
    intro hx
    rcases h _ hx with heq | ⟨type, size, buf, hdr, heq, -⟩
    · cases heq
    · cases heq
  obtain ⟨n, hn⟩ : ∃ n, strlen ((L.zlib.inflate b).1.take 8192) = some n := by
    cases hs : strlen ((L.zlib.inflate b).1.take 8192) with
    | none => exact absurd (readsAs_no_nul (strlen_eq_none.1 hs)) hfault
    | some n => exact ⟨n, rfl⟩
  obtain ⟨hdr, d, hinf, h0, rfl, hh⟩ := header_split hn
  have htake : (L.zlib.inflate b).1.take hdr.length = hdr := by rw [hinf, List.take_left]
  refine ⟨_, hn, ?_⟩
  rw [htake]
  intro type size hscan
  by_contra hno
  rw [not_or, Nat.not_le] at hno
  obtain ⟨hlt, hsize⟩ := hno
  rw [hinf] at hsize
  have hheap : (unlike d size).length = size := by simp [unlike]
  have hread := (readsAs_split (x := match fillObject (hdr ++ 0 :: d)
      (firstBuffer (hdr ++ 0 :: d) (List.replicate 8192 0)) (unlike d size)
      (firstInflateOk L.zlib b (hdr ++ 0 :: d) (L.zlib.inflate b).2) (hdr.length + 1) size with
    | none => .error .fault
    | some buf => .ok (some (type, size, buf))) hinf h0 hh).2
    ⟨List.replicate 8192 0, List.length_replicate, by
      simp only [hscan]
      exact ⟨hlt, unlike d size, hheap, rfl⟩⟩
  by_cases hle : firstPart hdr d ≤ size
  · obtain ⟨u, hus, hud, hu, hfill⟩ := fillObject_front hh
      (firstInflateOk_long L.zlib b (L.zlib.inflate b).2) hle
    have hult : u < size := Nat.lt_of_le_of_ne hus fun heq => hsize (hu.1 heq)
    rw [hfill] at hread
    rcases h _ hread with heq | ⟨type', size', buf, hdr', heq, hlen, h0', hpre⟩
    · cases heq
    · cases heq
      -- the buffer would have to be the data, but from `u` on it is not
      obtain ⟨w, hw⟩ := hpre
      rw [hinf, List.append_assoc, List.cons_append] at hw
      obtain ⟨-, hd⟩ := split_unique h0' h0 hw
      have hget := congrArg (fun l => l[u]?) hd
      have hul : u < d.length := by
        have := congrArg List.length hd
        simp only [List.length_append, hlen] at this
        omega
      rw [List.append_assoc] at hget
      simp only [List.getElem?_append_right (show (d.take u).length ≤ u by simp),
        List.length_take, Nat.min_eq_left hud, Nat.sub_self] at hget
      rw [List.getElem?_append_left (by rw [List.length_drop, hheap]; omega),
        List.getElem?_drop, Nat.add_zero, unlike, List.getElem?_map,
        List.getElem?_range hult, Option.map_some, List.getElem?_eq_getElem hul] at hget
      simp [List.getD, List.getElem?_eq_getElem hul] at hget
  · rw [fillObject_parts hh, if_pos (by omega)] at hread
    exact hfault hread

theorem DamageRejected.produced (hb : b.length < 2 ^ 64) (h0 : b ≠ [])
    (hp : L.objectDirectory.length + 42 < pathMax) (h : DamageRejected L b)
    (hx : ReadsAs L (inflateInput b) x) : Produced (L.zlib.inflate (inflateInput b)).1 x := by
  have hd := objectFile_dir L (List.Vector.replicate 20 0) b
  have hrun := (readSha1File_reads hd (by rw [sha1FileName_length]; exact hp) h0 hb).2 ⟨rfl, hx⟩
  exact h _ _ _ _ _ hd rfl (hrun.mono fun _ _ _ _ ha => ⟨ha.1, trivial⟩)

/-- Nothing but inflated bytes comes out of an object file, and no more than fit, if and only if
the file is empty, its name is too long to be opened, or its header agrees with its data. -/
theorem damage_rejected_iff (hb : b.length < 2 ^ 64) :
    DamageRejected L b ↔ b = [] ∨ pathMax ≤ L.objectDirectory.length + 42 ∨
      HeaderAgrees (L.zlib.inflate (inflateInput b)).1 := by
  constructor
  · intro h
    by_cases h0 : b = []
    · exact .inl h0
    · by_cases hp : pathMax ≤ L.objectDirectory.length + 42
      · exact .inr (.inl hp)
      · exact .inr (.inr (.of_produced fun x hx => h.produced hb h0 (by omega) hx))
  · intro hcond fs s i x fs' hd hi hx
    subst hi
    rcases readSha1File_outcome hd hx with hnull | ⟨hshort, hne, hread⟩
    · exact .inl hnull
    · rcases hcond with h0 | hp | hagree
      · exact absurd h0 hne
      · rw [sha1FileName_length] at hshort
        omega
      · exact hagree.produced hread

/-- The object of a file of one byte. -/
theorem damage_rejected_one :
    DamageRejected storedLib (storedLib.zlib.deflate (blobPieces [120])) := by
  have hinput : inflateInput (storedLib.zlib.deflate (blobPieces [120])) =
      storedLib.zlib.deflate (blobPieces [120]) := inflateInput_eq (by decide +kernel)
  have hinf : (storedLib.zlib.inflate (storedLib.zlib.deflate (blobPieces [120]))).1 =
      objectBytes (str "blob") [120] := by
    rw [show storedLib.zlib.inflate = storedZlib.inflate from rfl,
      show storedLib.zlib.deflate = storedZlib.deflate from rfl, storedZlib_lossless.inverse,
      blobPieces_flatten]
  refine (damage_rejected_iff (by decide +kernel)).2 (.inr (.inr ?_))
  rw [hinput, hinf]
  refine ⟨6, by decide +kernel, ?_⟩
  intro type size hscan
  have hs : scanHeader ((objectBytes (str "blob") [120]).take 6) = some (str "blob", 1) := by
    decide +kernel
  rw [hs] at hscan
  cases hscan
  refine .inr ⟨?_, ?_, ?_⟩
  · decide +kernel
  · decide +kernel
  · decide +kernel

def overdeclared : List Byte := storedLib.zlib.deflate [str "blob 9" ++ 0 :: str "hi"]

/-- Of the nine bytes returned, seven are whatever the memory held. -/
theorem damage_passed_on : ¬ ∀ L b, b.length < 2 ^ 64 → DamageRejected L b := by
  intro hall
  have hb : overdeclared.length < 2 ^ 64 := by decide +kernel
  obtain ⟨n, hn, hsize⟩ : HeaderAgrees (storedLib.zlib.inflate (inflateInput overdeclared)).1 :=
    .of_produced fun x hx =>
      (hall storedLib overdeclared hb).produced hb (by decide +kernel) (by decide +kernel) hx
  have hinf : (storedLib.zlib.inflate (inflateInput overdeclared)).1 =
      str "blob 9" ++ 0 :: str "hi" := by
    decide +kernel
  rw [hinf] at hn hsize
  have hsix : strlen ((str "blob 9" ++ 0 :: str "hi").take 8192) = some 6 := by decide +kernel
  rw [hsix] at hn
  cases hn
  have hscan : scanHeader ((str "blob 9" ++ 0 :: str "hi").take 6) = some (str "blob", 9) := by
    decide +kernel
  rcases hsize _ _ hscan with hbig | hagree
  · exact absurd hbig (by decide)
  · exact absurd hagree.2.1 (by decide +kernel)

end SelfGit
