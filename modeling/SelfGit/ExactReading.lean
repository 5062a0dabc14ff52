import SelfGit.BlobRoundTrip
import SelfGit.Tree

namespace SelfGit
open Foundation
set_option autoImplicit true

def objectFile (L : Lib) (s : Sha1) (b : List Byte) : FS :=
  ⟨Function.update FS.empty.dir (sha1FileName L s) (some 0), fun _ => b, 1⟩

theorem objectFile_dir (L : Lib) (s : Sha1) (b : List Byte) :
    (objectFile L s b).dir (sha1FileName L s) = some 0 := by
  simp only [objectFile, Function.update_self]

theorem printedHeader_flatten (type content : List Byte) :
    [type ++ 32 :: numeral 10 content.length ++ [0], content].flatten =
      objectBytes type content := by
  simp [objectBytes]

theorem prependedHeader_flatten (ht : Tag type) (hn : content.length < 2 ^ 32)
    {reserve : List Byte} (hr : reserve.length = origOffset) : ∃ buffer start,
      prependHeader (type ++ [32]) (reserve ++ content) content.length = some (buffer, start) ∧
        [buffer.drop start].flatten = objectBytes type content := by
  have hs := ht.short
  have hnum := numeral_length_le (b := 10) (k := 10) (n := content.length) (by decide) (by decide)
    (by omega)
  obtain ⟨pre, hpre, -⟩ := prependHeader_eq (type ++ [32]) content.length reserve content hr (by
    rw [List.length_append, List.length_singleton, origOffset]
    omega)
  refine ⟨_, _, hpre, ?_⟩
  rw [List.drop_left]
  simp [objectBytes]

theorem readSha1File_deflated {fs : FS} (hz : L.zlib.Lossless) (ht : Tag type)
    (hn : content.length < 2 ^ 32) (hps : ps.flatten = objectBytes type content)
    (hd : fs.dir (sha1FileName L s) = some i) (hp : (sha1FileName L s).length < pathMax)
    (hi : fs.data i = L.zlib.deflate ps) (hl : (L.zlib.deflate ps).length < 2 ^ 64) :
    (∀ x fs', RunsTo Granted fs (readSha1File L s) x fs' ↔
      fs' = fs ∧ x = .ok (some (type, content.length, content))) ↔
    (L.zlib.inflate (inflateInput (L.zlib.deflate ps))).1 = objectBytes type content :=
  readSha1File_input hz ht hn hps hd hp (by rw [hi]; exact hl) (by rw [hi, inflateInput])

/-- An object that is its complete stream is read back exactly, whichever way its header was
written, if and only if the first `length mod 2^32` bytes of the stream inflate to all of it. -/
theorem object_read_exactly {fs : FS} (hz : L.zlib.Lossless) (ht : Tag type)
    (hn : content.length < 2 ^ 32 - 8192) (hd : fs.dir (sha1FileName L s) = some i)
    (hp : (sha1FileName L s).length < pathMax) (hps : ps.flatten = objectBytes type content)
    (hi : fs.data i = L.zlib.deflate ps) (hl : (L.zlib.deflate ps).length < 2 ^ 64) :
    [type ++ 32 :: numeral 10 content.length ++ [0], content].flatten =
      objectBytes type content ∧
    (∀ reserve : List Byte, reserve.length = origOffset → ∃ buffer start,
      prependHeader (type ++ [32]) (reserve ++ content) content.length = some (buffer, start) ∧
        [buffer.drop start].flatten = objectBytes type content) ∧
    ((∀ x fs', RunsTo Granted fs (readSha1File L s) x fs' ↔
      fs' = fs ∧ x = .ok (some (type, content.length, content))) ↔
      (L.zlib.inflate ((L.zlib.deflate ps).take ((L.zlib.deflate ps).length % 2 ^ 32))).1 =
        objectBytes type content) ∧
    ((L.zlib.deflate ps).length < 2 ^ 32 →
      (L.zlib.inflate ((L.zlib.deflate ps).take ((L.zlib.deflate ps).length % 2 ^ 32))).1 =
        objectBytes type content) := by
  refine ⟨printedHeader_flatten type content, ?_, ?_, ?_⟩
  · intro reserve hr
    exact prependedHeader_flatten ht (by omega) hr
  · exact readSha1File_deflated hz ht (by omega) hps hd hp hi hl
  · intro hshort
    rw [Nat.mod_eq_of_lt hshort, List.take_length, hz.inverse, hps]

theorem object_read_exactly_long :
    (storedLib.zlib.deflate (blobPieces (List.replicate 9000 120))).length < 2 ^ 32 ∧
    ∀ x fs', RunsTo Granted (objectFile storedLib (List.Vector.replicate 20 0)
        (storedLib.zlib.deflate (blobPieces (List.replicate 9000 120))))
        (readSha1File storedLib (List.Vector.replicate 20 0)) x fs' ↔
      fs' = objectFile storedLib (List.Vector.replicate 20 0)
        (storedLib.zlib.deflate (blobPieces (List.replicate 9000 120))) ∧
        x = .ok (some (str "blob", 9000, List.replicate 9000 120)) := by
  obtain ⟨content, hcontent⟩ : ∃ content, content = List.replicate 9000 (120 : Byte) := ⟨_, rfl⟩
  have hlen : content.length = 9000 := by rw [hcontent, List.length_replicate]
  have hobject : (blobPieces content).flatten.length = 9010 := by
    have htag : (str "blob").length = 4 := by decide
    have hnum : (numeral 10 9000).length = 4 := by decide
    rw [blobPieces_flatten, objectBytes]
    simp only [List.length_append, List.length_cons, hlen, htag, hnum]
  have hshort : (storedLib.zlib.deflate (blobPieces content)).length < 2 ^ 32 := by
    change (storedStream (blobPieces content).flatten).length < 2 ^ 32
    rw [storedStream_length, hobject]
    decide
  rw [← hcontent, ← hlen]
  obtain ⟨-, -, hiff, hsmall⟩ := object_read_exactly storedZlib_lossless blob_tag
    (show content.length < 2 ^ 32 - 8192 by omega) (objectFile_dir storedLib _ _)
    (sha1FileName_stored _) (blobPieces_flatten content) rfl (Nat.lt_trans hshort (by decide))
  exact ⟨hshort, hiff.2 (hsmall hshort)⟩

/-- The stream of an incompressible blob of 2^32 - 8193 bytes is longer than `avail_in` can
tell. -/
theorem long_stream_misread : ¬ ∀ (L : Lib) type content ps s i (fs : FS), L.zlib.Lossless →
    Tag type → content.length < 2 ^ 32 - 8192 → fs.dir (sha1FileName L s) = some i →
    (sha1FileName L s).length < pathMax → ps.flatten = objectBytes type content →
    fs.data i = L.zlib.deflate ps → (L.zlib.deflate ps).length < 2 ^ 64 →
    ∀ x fs', RunsTo Granted fs (readSha1File L s) x fs' ↔
      fs' = fs ∧ x = .ok (some (type, content.length, content)) := by
  intro hall
  obtain ⟨n, hn⟩ : ∃ n, n = 2 ^ 32 - 8193 := ⟨_, rfl⟩
  have hlen := noise_length n 1 2 3
  have hflat : n ≤ (blobPieces (noise n 1 2 3)).flatten.length ∧
      (blobPieces (noise n 1 2 3)).flatten.length ≤ n + 30 := by
    have hnum := numeral_length_le (b := 10) (k := 10) (n := n) (by decide) (by decide) (by omega)
    have htag : (str "blob").length = 4 := by decide
    rw [blobPieces_flatten, objectBytes, List.length_append, List.length_append,
      List.length_cons, List.length_cons, hlen]
    omega
  have hstream : (storedLib.zlib.deflate (blobPieces (noise n 1 2 3))).length =
      (blobPieces (noise n 1 2 3)).flatten.length +
        5 * (((blobPieces (noise n 1 2 3)).flatten.length - 1) / blockMax) + 11 :=
    storedStream_length _
  rw [blockMax] at hstream
  have hd := objectFile_dir storedLib (List.Vector.replicate 20 0)
    (storedLib.zlib.deflate (blobPieces (noise n 1 2 3)))
  have hread := hall storedLib (str "blob") (noise n 1 2 3) (blobPieces (noise n 1 2 3))
    (List.Vector.replicate 20 0) 0 _ storedZlib_lossless blob_tag (by omega) hd
    (sha1FileName_stored _) (blobPieces_flatten _) rfl (by omega)
  have hlost := (readSha1File_deflated storedZlib_lossless blob_tag (by omega)
    (blobPieces_flatten (noise n 1 2 3)) hd (sha1FileName_stored _) rfl (by omega)).1 hread
  rw [← blobPieces_flatten] at hlost
  refine storedZlib_short (blobPieces (noise n 1 2 3)) (by omega) ?_ hlost
  change _ < (storedLib.zlib.deflate (blobPieces (noise n 1 2 3))).length
  omega

end SelfGit
