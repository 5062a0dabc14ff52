import SelfGit.ReadObject
import SelfGit.StoredZlib
import SelfGit.UpdateCache

namespace SelfGit
open Foundation
set_option autoImplicit true

/-- Mapping the file gives its content, and every write takes all the bytes it is given. -/
def Holding (content : List Byte) : (o : Op) → o.Res → Prop
  | .mmap _ _, (r : Option (List Byte)) => ∀ m, r = some m → m = content
  | .write _ buf, (r : Int) => r = buf.length
  | _, _ => True

def blobPieces (content : List Byte) : List (List Byte) :=
  [str "blob " ++ numeral 10 content.length ++ [0], content]

theorem blobPieces_flatten (content : List Byte) :
    (blobPieces content).flatten = objectBytes (str "blob") content := by
  rw [show str "blob" = [98, 108, 111, 98] from by decide]
  simp only [blobPieces, objectBytes, show str "blob " = [98, 108, 111, 98, 32] from by decide,
    List.flatten_cons, List.flatten_nil, List.append_nil, List.append_assoc, List.cons_append,
    List.nil_append]

theorem blob_tag : Tag (str "blob") := by
  refine ⟨by decide, by decide, ?_, by decide⟩
  decide +kernel

/-- What `index_fd` feeds to `deflate`: `avail_in` takes 32 bits of the size. -/
def fedPieces (st : Stat) (content : List Byte) : List (List Byte) :=
  [str "blob " ++ numeral 10 st.stSize.toNat ++ [0], content.take (st.stSize.toNat % 2 ^ 32)]

theorem fedPieces_eq (hst : st.stSize.toNat = content.length) (hn : content.length < 2 ^ 32) :
    fedPieces st content = blobPieces content := by
  rw [fedPieces, hst, Nat.mod_eq_of_lt hn, List.take_length, blobPieces]

/-- The object that `index_fd` makes of a file. -/
def blobFile (L : Lib) (namelen : Nat) (content : List Byte) : List Byte :=
  deflateInto L (blobPieces content) (toInt (namelen + content.length + 200 : Nat))

theorem FS.create_append_dir (fs : FS) (p : Path) (b : List Byte) :
    ((fs.create p).append fs.next b).dir p = some fs.next := by
  simp only [FS.append, FS.create, Function.update_self]

theorem FS.create_append_data (fs : FS) (p : Path) (b : List Byte) :
    ((fs.create p).append fs.next b).data fs.next = b := by
  simp only [FS.append, FS.create, Function.update_self, List.nil_append]

theorem writeSha1Buffer_new {fs fs' : FS} {ok : (o : Op) → o.Res → Prop} {x : Except Stop Int}
    (hw : ∀ k buf (r : Int), ok (.write (.repo k) buf) r ↔ r = buf.length)
    (hd : fs.dir (sha1FileName L s) = none) :
    RunsTo ok fs (writeSha1Buffer L s buf) x fs' ↔
      (x = .ok 0 ∧ (sha1FileName L s).length < pathMax ∧
        ok (.openExcl (sha1FileName L s)) (Except.ok (Fd.repo fs.next)) ∧
        fs' = (fs.create (sha1FileName L s)).append fs.next buf) ∨
      (x = .ok (-1) ∧ fs' = fs ∧
        ∃ e, e ≠ .EEXIST ∧ ok (.openExcl (sha1FileName L s)) (Except.error e)) := by
  have hwrite : ∀ (fs₁ fs₂ : FS) k (r : Int), fs₁.written (.repo k) buf r = some fs₂ ∧
      ok (.write (.repo k) buf) r ↔ r = buf.length ∧ fs₂ = fs₁.append k buf := by
    intro fs₁ fs₂ k r
    rw [hw]
    exact complete_write
  simp only [writeSha1Buffer, runs_openExcl]
  constructor
  · rintro ⟨r, fs₁, ⟨hc, hok⟩, h⟩
    cases r with
    | error e =>
      simp only [FS.created, hd, and_true] at hc
      split at hc
      · cases hc
      · rename_i he
        cases hc
        simp only [Prog.runs_pure, if_neg he] at h
        exact .inr ⟨h.1, h.2, e, he, hok⟩
    | ok fd =>
      simp only [FS.created, hd, true_and] at hc
      split at hc
      · rename_i hfd
        cases hc
        rw [hfd.1] at h hok
        simp only [runs_write, hwrite, Prog.runs_pure] at h
        obtain ⟨_, _, ⟨rfl, rfl⟩, rfl, rfl⟩ := h
        exact .inl ⟨rfl, hfd.2, hok, rfl⟩
      · cases hc
  · rintro (⟨rfl, hp, hok, rfl⟩ | ⟨rfl, hfs, e, he, hok⟩)
    · refine ⟨.ok (.repo fs.next), fs.create (sha1FileName L s), ⟨?_, hok⟩, ?_⟩
      · simp only [FS.created]
        rw [if_pos ⟨trivial, hd, hp⟩]
      · simp only [runs_write, hwrite]
        exact ⟨_, _, ⟨rfl, rfl⟩, Prog.runs_pure.2 ⟨rfl, rfl⟩⟩
    · subst fs'
      refine ⟨.error e, fs, ⟨?_, hok⟩, ?_⟩
      · simp only [FS.created]
        rw [if_neg (fun h => he h.1)]
      · simp only [if_neg he]
        exact Prog.runs_pure.2 ⟨rfl, rfl⟩

theorem writeSha1Buffer_ends : ¬ RunsTo ok fs (writeSha1Buffer L s buf) (.error e) fs' := by
  intro h
  rw [writeSha1Buffer, runs_openExcl] at h
  obtain ⟨r, fs₁, -, h⟩ := h
  cases r with
  | error e => cases (Prog.runs_pure.1 h).1
  | ok fd =>
    rw [runs_write] at h
    obtain ⟨_, _, -, h⟩ := h
    cases (Prog.runs_pure.1 h).1

theorem holding_write (content : List Byte) (k : Nat) (buf : List Byte) (r : Int) :
    Holding content (.write (.repo k) buf) r ↔ r = buf.length := Iff.rfl

theorem indexFd_stored {fs fs' : FS} (hn : content.length < 2 ^ 32)
    (hst : st.stSize.toNat = content.length)
    (hrun : RunsTo (Holding content) fs (indexFd L namelen ce fd st) (.ok (0, ce')) fs')
    (hnew : fs.dir (sha1FileName L ce'.sha1) = none) :
    ce'.sha1 = L.sha1 (blobFile L namelen content) ∧
      (sha1FileName L ce'.sha1).length < pathMax ∧
      fs' = (fs.create (sha1FileName L ce'.sha1)).append fs.next (blobFile L namelen content) := by
  simp only [indexFd, runs_malloc, runs_mmap] at hrun
  obtain ⟨out, -, r, ⟨-, hr⟩, hrun⟩ := hrun
  cases r with
  | none => simp at hrun
  | some m =>
    have hm : m = content := hr m rfl
    subst hm
    cases out with
    | false => simp at hrun
    | true =>
      simp only [hst, Nat.mod_eq_of_lt hn, List.take_length, ↓reduceIte] at hrun
      change RunsTo (Holding m) fs (writeSha1Buffer L (L.sha1 (blobFile L namelen m))
        (blobFile L namelen m) >>= _) _ _ at hrun
      rw [runs_seq] at hrun
      rcases hrun with ⟨a, fs₁, hw, hrun⟩ | ⟨e, he, -⟩
      · simp only [Prog.runs_pure, Except.ok.injEq, Prod.mk.injEq] at hrun
        obtain ⟨⟨rfl, hce⟩, rfl⟩ := hrun
        have hsha : ce'.sha1 = L.sha1 (blobFile L namelen m) := by
          rw [hce]
          rfl
        rw [hsha] at hnew ⊢
        rw [writeSha1Buffer_new (holding_write m) hnew] at hw
        rcases hw with ⟨-, hp, -, rfl⟩ | ⟨h0, -⟩
        · exact ⟨rfl, hp, rfl⟩
        · simp at h0
      · cases he

/-- The first `max_out_bytes` bytes of the stream still inflate to all of the blob. -/
def BlobFits (L : Lib) (namelen : Nat) (content : List Byte) : Prop :=
  (L.zlib.inflate (blobFile L namelen content)).1 = objectBytes (str "blob") content

theorem toInt_toNat_lt (n : Int) : (toInt n).toNat < 2 ^ 31 := by
  have := Int.bmod_lt (x := n) (m := 2 ^ 32) (by decide)
  simp only [toInt]
  omega

/-- After `index_fd` has returned 0 for a new object, the blob is read back exactly if and only if
its stream fitted the buffer, but for bytes that carry no data. -/
theorem blob_round_trip (hz : L.zlib.Lossless) (path : CStr) (hn : content.length ≤ 2 ^ 30)
    (hst : st.stSize.toNat = content.length)
    (hrun : RunsTo (Holding content) fs (indexFd L path.1.length ce fd st) (.ok (0, ce')) fs')
    (hnew : fs.dir (sha1FileName L ce'.sha1) = none) :
    (∀ x fs'', RunsTo Granted fs' (readSha1File L ce'.sha1) x fs'' ↔
      fs'' = fs' ∧ x = .ok (some (str "blob", content.length, content))) ↔
    BlobFits L path.1.length content := by
  obtain ⟨-, hp, rfl⟩ := indexFd_stored (by omega) hst hrun hnew
  have hlt := toInt_toNat_lt (path.1.length + content.length + 200 : Nat)
  exact readSha1File_stored hz blob_tag (by omega) (blobPieces_flatten content)
    (Nat.lt_trans hlt (by decide)) (FS.create_append_dir _ _ _) hp (FS.create_append_data _ _ _)

theorem BlobFits.of_length (hz : L.zlib.Lossless)
    (h : (L.zlib.deflate (blobPieces content)).length ≤
      (toInt (namelen + content.length + 200 : Nat)).toNat) : BlobFits L namelen content := by
  rw [BlobFits, blobFile, deflateInto, List.take_of_length_le h, hz.inverse,
    blobPieces_flatten]

/-- What `index_fd` hands to `write_sha1_buffer`. -/
def fedFile (L : Lib) (namelen : Nat) (st : Stat) (content : List Byte) : List Byte :=
  deflateInto L (fedPieces st content) (toInt (namelen + st.stSize.toNat + 200 : Nat))

theorem indexFd_returns {fs : FS} (h0 : 0 < content.length) (hst : st.stSize.toNat = content.length)
    (hmax : 0 ≤ toInt (namelen + st.stSize.toNat + 200 : Nat))
    (hnew : fs.dir (sha1FileName L (L.sha1 (fedFile L namelen st content))) = none)
    (hp : (sha1FileName L (L.sha1 (fedFile L namelen st content))).length < pathMax) :
    RunsTo (Holding content) fs (indexFd L namelen ce (.work n) st)
      (.ok (0, { ce with sha1 := L.sha1 (fedFile L namelen st content) }))
      ((fs.create (sha1FileName L (L.sha1 (fedFile L namelen st content)))).append fs.next
        (fedFile L namelen st content)) := by
  have hlt := toInt_toNat_lt (namelen + st.stSize.toNat + 200 : Nat)
  simp only [indexFd, runs_malloc, runs_mmap]
  refine ⟨true, ⟨fun _ => by omega, trivial⟩, some content, ⟨?_, fun m hm => ?_⟩, ?_⟩
  · simp only [FS.mapped, hst, h0, and_self, ↓reduceIte]
  · exact (Option.some.inj hm).symm
  · simp only [↓reduceIte]
    change RunsTo (Holding content) fs (writeSha1Buffer L (L.sha1 (fedFile L namelen st content))
      (fedFile L namelen st content) >>= _) _ _
    rw [runs_seq]
    exact .inl ⟨0, _, (writeSha1Buffer_new (holding_write content) hnew).2
      (.inl ⟨rfl, hp, trivial, rfl⟩), Prog.runs_pure.2 ⟨rfl, rfl⟩⟩

theorem indexFd_stores {fs : FS} (h0 : 0 < content.length) (hn : content.length < 2 ^ 32)
    (hst : st.stSize.toNat = content.length)
    (hmax : 0 ≤ toInt (namelen + content.length + 200 : Nat))
    (hnew : fs.dir (sha1FileName L (L.sha1 (blobFile L namelen content))) = none)
    (hp : (sha1FileName L (L.sha1 (blobFile L namelen content))).length < pathMax) :
    RunsTo (Holding content) fs (indexFd L namelen ce (.work n) st)
      (.ok (0, { ce with sha1 := L.sha1 (blobFile L namelen content) }))
      ((fs.create (sha1FileName L (L.sha1 (blobFile L namelen content)))).append fs.next
        (blobFile L namelen content)) := by
  have hfile : fedFile L namelen st content = blobFile L namelen content := by
    rw [fedFile, blobFile, fedPieces_eq hst hn, hst]
  rw [← hfile] at hnew hp ⊢
  exact indexFd_returns h0 hst (by rw [hst]; exact hmax) hnew hp

theorem sha1FileName_stored (s : Sha1) : (sha1FileName storedLib s).length < pathMax := by
  rw [sha1FileName_length, show storedLib.objectDirectory.length = 17 by decide]
  decide

theorem blob_round_trip_one : ∃ fs' ce', RunsTo (Holding [120]) FS.empty
      (indexFd storedLib 1 (newEntry (cstr "a") (Stat.ofSize 1)) (.work 0) (Stat.ofSize 1))
      (.ok (0, ce')) fs' ∧
    ((∀ x fs'', RunsTo Granted fs' (readSha1File storedLib ce'.sha1) x fs'' ↔
      fs'' = fs' ∧ x = .ok (some (str "blob", 1, [120]))) ↔ BlobFits storedLib 1 [120]) ∧
    BlobFits storedLib 1 [120] := by
  have hrun : RunsTo (Holding [120]) FS.empty (indexFd storedLib 1
      (newEntry (cstr "a") (Stat.ofSize 1)) (.work 0) (Stat.ofSize 1)) _ _ :=
    indexFd_stores (by decide) (by decide) (by decide) (by decide) rfl (sha1FileName_stored _)
  exact ⟨_, _, hrun, blob_round_trip storedZlib_lossless (cstr "a") (by decide) (by decide) hrun
    rfl, BlobFits.of_length storedZlib_lossless (by decide +kernel)⟩

/-- Bytes without repetitions, which are stored rather than compressed. -/
def noise : Nat → Nat → Nat → Nat → List Byte
  | 0, _, _, _ => []
  | n + 1, x, y, z => UInt8.ofNat x :: noise n y z ((x + y * z / 16 + z + 1) % 256)

theorem noise_length (n x y z : Nat) : (noise n x y z).length = n := by
  induction n generalizing x y z with
  | zero => rfl
  | succ n ih => rw [noise, List.length_cons, ih]

/-- An incompressible file of 712345 bytes under the name `a`: the object is cut, and does not
read back. -/
theorem blob_cut : ∃ fs' ce', verifyPath (cstr "a") = true ∧
    RunsTo (Holding (noise 712345 1 2 3)) FS.empty (indexFd storedLib (cstr "a").1.length
      (newEntry (cstr "a") (Stat.ofSize 712345)) (.work 0) (Stat.ofSize 712345))
      (.ok (0, ce')) fs' ∧
    ¬ ∀ x fs'', RunsTo Granted fs' (readSha1File storedLib ce'.sha1) x fs'' ↔
      fs'' = fs' ∧ x = .ok (some (str "blob", 712345, noise 712345 1 2 3)) := by
  have hl := noise_length 712345 1 2 3
  have hname : (cstr "a").1.length = 1 := by decide
  have hsize : (Stat.ofSize 712345).stSize.toNat = (noise 712345 1 2 3).length := by
    rw [hl]
    decide
  have hint : toInt (1 + 712345 + 200 : Nat) = 712546 := by decide
  have hrun : RunsTo (Holding (noise 712345 1 2 3)) FS.empty (indexFd storedLib
      (cstr "a").1.length (newEntry (cstr "a") (Stat.ofSize 712345)) (.work 0)
      (Stat.ofSize 712345)) _ _ :=
    indexFd_stores (by rw [hl]; decide) (by rw [hl]; decide) hsize
      (by rw [hname, hl, hint]; decide) rfl (sha1FileName_stored _)
  refine ⟨_, _, by decide, hrun, ?_⟩
  have hread := readSha1File_stored storedZlib_lossless blob_tag (by rw [hl]; decide)
    (blobPieces_flatten (noise 712345 1 2 3)) (Nat.lt_trans (toInt_toNat_lt _) (by decide))
    (FS.create_append_dir FS.empty (sha1FileName storedLib (storedLib.sha1 (blobFile storedLib
      (cstr "a").1.length (noise 712345 1 2 3)))) (blobFile storedLib (cstr "a").1.length
      (noise 712345 1 2 3))) (sha1FileName_stored _) (FS.create_append_data _ _ _)
  rw [hl] at hread
  rw [hread, ← blobPieces_flatten]
  have hflat : (blobPieces (noise 712345 1 2 3)).flatten.length = 712357 := by
    rw [blobPieces_flatten, objectBytes, List.length_append, List.length_append,
      List.length_cons, List.length_cons, hl]
    decide +kernel
  have hstream : (storedLib.zlib.deflate (blobPieces (noise 712345 1 2 3))).length =
      712357 + 5 * ((712357 - 1) / blockMax) + 11 := by
    rw [← hflat]
    exact storedStream_length _
  apply storedZlib_short _ (by rw [hflat]; decide)
  rw [hname, hint]
  change _ < (storedLib.zlib.deflate (blobPieces (noise 712345 1 2 3))).length
  rw [hstream]
  decide

end SelfGit
