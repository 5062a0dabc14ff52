import SelfGit.BlobRoundTrip
import SelfGit.Processes

namespace SelfGit
open Foundation
set_option autoImplicit true

/-- `index_fd` returns -1, or it has given `deflate` the whole mapping, under a header with its
length, and a room that is not narrowed. -/
def SizeSurvives (namelen : Nat) (st : Stat) : Prop :=
  ∀ L ce fd fs x fs', RunsTo anyAnswer fs (indexFd L namelen ce fd st) x fs' →
    (∃ ce', x = .ok (-1, ce')) ∨
      ∃ content : List Byte,
        x = .ok (0, { ce with sha1 := L.sha1 (fedFile L namelen st content) }) ∧
          content.length = st.stSize.toNat ∧ fedPieces st content = blobPieces content ∧
          toInt (namelen + st.stSize.toNat + 200 : Nat) = namelen + st.stSize.toNat + 200

theorem writeSha1Buffer_result (h : RunsTo ok fs (writeSha1Buffer L s buf) (.ok r) fs') :
    r = 0 ∨ r = -1 := by
  rw [writeSha1Buffer, runs_openExcl] at h
  obtain ⟨a, fs₁, -, h⟩ := h
  cases a with
  | error e =>
    have hr := (Prog.runs_pure.1 h).1
    rw [Except.ok.injEq] at hr
    split at hr
    · exact .inl hr
    · exact .inr hr
  | ok fd =>
    rw [runs_write] at h
    obtain ⟨_, _, -, h⟩ := h
    have hr := (Prog.runs_pure.1 h).1
    rw [Except.ok.injEq] at hr
    exact .inl hr

theorem FS.mapped_length (h : FS.mapped fs fd len (some m) = some fs') : m.length = len := by
  cases fd with
  | repo i =>
    simp only [FS.mapped] at h
    split at h
    · rename_i hm
      exact hm.2.1
    · cases h
  | work i =>
    simp only [FS.mapped] at h
    split at h
    · rename_i hm
      exact hm.1
    · cases h

theorem indexFd_cases (h : RunsTo ok fs (indexFd L namelen ce fd st) x fs') :
    (∃ ce', x = .ok (-1, ce')) ∨ ∃ content : List Byte,
      x = .ok (0, { ce with sha1 := L.sha1 (fedFile L namelen st content) }) ∧
        content.length = st.stSize.toNat ∧
        0 ≤ toInt (namelen + st.stSize.toNat + 200 : Nat) := by
  simp only [indexFd, runs_malloc, runs_mmap] at h
  obtain ⟨out, ⟨hout, -⟩, m, ⟨hm, -⟩, h⟩ := h
  cases m with
  | none => exact .inl ⟨ce, (Prog.runs_pure.1 h).1⟩
  | some content =>
    cases out with
    | false => exact .inl ⟨ce, (Prog.runs_pure.1 h).1⟩
    | true =>
      have hmax : 0 ≤ toInt (namelen + st.stSize.toNat + 200 : Nat) := by
        have hreq := hout rfl
        have hlow := Int.le_bmod (x := (namelen + st.stSize.toNat + 200 : Nat)) (m := 2 ^ 32)
          (by decide)
        rw [toInt] at hreq ⊢
        omega
      change RunsTo ok fs (writeSha1Buffer L (L.sha1 (fedFile L namelen st content))
        (fedFile L namelen st content) >>= _) _ _ at h
      rw [runs_seq] at h
      rcases h with ⟨r, fs₁, hw, h⟩ | ⟨e, -, hw⟩
      · have hx := (Prog.runs_pure.1 h).1
        rcases writeSha1Buffer_result hw with rfl | rfl
        · exact .inr ⟨content, hx, FS.mapped_length hm, hmax⟩
        · exact .inl ⟨_, hx⟩
      · exact absurd hw writeSha1Buffer_ends

/-- The size survives if and only if the room is not narrowed, or becomes negative and cannot be
had. -/
theorem size_survives (hn : namelen < 4096) (hs : st.stSize.toNat < 2 ^ 63) :
    SizeSurvives namelen st ↔ namelen + st.stSize.toNat + 200 < 2 ^ 31 ∨
      2 ^ 31 ≤ (namelen + st.stSize.toNat + 200) % 2 ^ 32 := by
  constructor
  · intro h
    by_contra hcond
    obtain ⟨content, hlen⟩ : ∃ content : List Byte, content.length = st.stSize.toNat :=
      ⟨List.replicate st.stSize.toNat 0, List.length_replicate⟩
    have hmax : 0 ≤ toInt (namelen + st.stSize.toNat + 200 : Nat) := by
      simp only [toInt, Int.bmod_def]
      omega
    have hrun : RunsTo (Holding content) FS.empty
        (indexFd storedLib namelen (newEntry (cstr "a") st) (.work 0) st) _ _ :=
      indexFd_returns (by omega) hlen.symm hmax rfl (sha1FileName_stored _)
    rcases h _ _ _ _ _ _ (hrun.mono fun _ _ _ _ ha => ⟨ha.1, trivial⟩) with
      ⟨ce', hx⟩ | ⟨_, -, -, -, hwide⟩
    · cases hx
    · simp only [toInt, Int.bmod_def] at hwide
      omega
  · intro hcond L ce fd fs x fs' hrun
    rcases indexFd_cases hrun with hx | ⟨content, hx, hlen, hmax⟩
    · exact .inl hx
    · have hsmall : namelen + st.stSize.toNat + 200 < 2 ^ 31 := by
        simp only [toInt, Int.bmod_def] at hmax
        omega
      refine .inr ⟨content, hx, hlen, fedPieces_eq hlen.symm (by omega), ?_⟩
      rw [toInt_of_lt hsmall]
      omega

theorem size_survives_one : SizeSurvives 1 (Stat.ofSize 1) :=
  (size_survives (by decide) (by decide)).2 (.inl (by decide))

/-- Of a file of 4 GiB nothing is fed to `deflate`, under a header that tells its size. -/
theorem size_lost : ¬ ∀ namelen st, namelen < 4096 → st.stSize.toNat < 2 ^ 63 →
    SizeSurvives namelen st := by
  intro hall
  have hsurvives := hall 1 (Stat.ofSize (2 ^ 32)) (by decide) (by decide)
  obtain ⟨content, hlen⟩ : ∃ content : List Byte,
      content.length = (Stat.ofSize (2 ^ 32)).stSize.toNat :=
    ⟨List.replicate (Stat.ofSize (2 ^ 32)).stSize.toNat 0, List.length_replicate⟩
  have hsize : (Stat.ofSize (2 ^ 32)).stSize.toNat = 2 ^ 32 := by decide
  have hrun : RunsTo (Holding content) FS.empty (indexFd storedLib 1
      (newEntry (cstr "a") (Stat.ofSize (2 ^ 32))) (.work 0) (Stat.ofSize (2 ^ 32))) _ _ :=
    indexFd_returns (by omega) hlen.symm (by decide) rfl (sha1FileName_stored _)
  rcases hsurvives _ _ _ _ _ _ (hrun.mono fun _ _ _ _ ha => ⟨ha.1, trivial⟩) with
    ⟨ce', hx⟩ | ⟨_, -, -, -, hmax⟩
  · cases hx
  · exact absurd hmax (by decide)

end SelfGit
