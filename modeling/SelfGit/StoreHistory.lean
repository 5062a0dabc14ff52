import SelfGit.BlobRoundTrip
import SelfGit.Processes

namespace SelfGit
open Foundation
set_option autoImplicit true

/-- One call of `write_sha1_buffer`: its arguments, what it returns, and the repository after it. -/
structure StoreCall where
  sha1 : Sha1
  buf : List Byte
  result : Int
  after : FS

/-- Calls one after the other. -/
inductive StoreCalls (ok : (o : Op) → o.Res → Prop) (L : Lib) : FS → List StoreCall → Prop
  | nil : StoreCalls ok L fs []
  | cons (h : RunsTo ok fs (writeSha1Buffer L call.sha1 call.buf) (.ok call.result) call.after)
      (hs : StoreCalls ok L call.after calls) : StoreCalls ok L fs (call :: calls)

def StoreCall.Honest (L : Lib) (call : StoreCall) : Prop :=
  call.result = 0 → call.after.read (sha1FileName L call.sha1) = some call.buf

/-- The buffer hashes to the name, and nothing else does. -/
def StoreCall.Unique (L : Lib) (call : StoreCall) : Prop :=
  ∀ b, L.sha1 b = call.sha1 ↔ b = call.buf

/-- What is found under the name of an object hashes to it. -/
structure StoreSound (L : Lib) (fs : FS) : Prop where
  good : fs.Good
  hash : ∀ s b, fs.read (sha1FileName L s) = some b → L.sha1 b = s

theorem FS.create_append_read {fs : FS} (hg : fs.Good) (p q : Path) (b : List Byte) :
    ((fs.create p).append fs.next b).read q = if q = p then some b else fs.read q := by
  rw [FS.read, FS.read]
  split
  · rename_i hq
    subst hq
    rw [FS.create_append_dir, Option.map_some, FS.create_append_data]
  · rename_i hq
    have hdir : ((fs.create p).append fs.next b).dir q = fs.dir q :=
      Function.update_of_ne hq _ _
    rw [hdir]
    cases hd : fs.dir q with
    | none => rfl
    | some k =>
      have hk := hg q k hd
      have hdata : ((fs.create p).append fs.next b).data k = fs.data k := by
        simp only [FS.append, FS.create]
        rw [Function.update_of_ne (by omega), Function.update_of_ne (by omega)]
      rw [Option.map_some, Option.map_some, hdata]

theorem StoreSound.store (h : StoreSound L fs) (hb : L.sha1 b = s) :
    StoreSound L ((fs.create (sha1FileName L s)).append fs.next b) where
  good := h.good.create _
  hash t c hread := by
    rw [FS.create_append_read h.good] at hread
    split at hread
    · rename_i ht
      cases hread
      rw [hb, sha1FileName_injective ht]
    · exact h.hash t c hread

/-- All that a call can do: leave an object that exists, report a failure, or make a new file. -/
theorem writeSha1Buffer_cases {ok : (o : Op) → o.Res → Prop} {fs fs' : FS}
    (h : RunsTo ok fs (writeSha1Buffer L s buf) (.ok r) fs') :
    (r = 0 ∧ fs' = fs ∧ fs.dir (sha1FileName L s) ≠ none ∧
      ok (.openExcl (sha1FileName L s)) (Except.error .EEXIST)) ∨
    (r = -1 ∧ fs' = fs ∧
      ∃ e, e ≠ .EEXIST ∧ ok (.openExcl (sha1FileName L s)) (Except.error e)) ∨
    (r = 0 ∧ fs.dir (sha1FileName L s) = none ∧ (sha1FileName L s).length < pathMax ∧
      ok (.openExcl (sha1FileName L s)) (Except.ok (Fd.repo fs.next)) ∧
      ∃ w : Int, ok (.write (.repo fs.next) buf) w ∧
        fs' = (fs.create (sha1FileName L s)).append fs.next (buf.take w.toNat) ∧
        w ≤ buf.length) := by
  simp only [writeSha1Buffer, runs_openExcl] at h
  obtain ⟨open', fs₁, ⟨hc, hok⟩, h⟩ := h
  cases open' with
  | error e =>
    simp only [FS.created] at hc
    split at hc
    · cases hc
    · rename_i he
      cases hc
      obtain ⟨hr, rfl⟩ := Prog.runs_pure.1 h
      cases hr
      by_cases hexist : e = .EEXIST
      · subst hexist
        exact .inl ⟨by simp, rfl, fun hn => he ⟨rfl, hn⟩, hok⟩
      · exact .inr (.inl ⟨by simp [hexist], rfl, e, hexist, hok⟩)
  | ok fd =>
    simp only [FS.created] at hc
    split at hc
    · rename_i hfd
      obtain ⟨rfl, hnone, hp⟩ := hfd
      cases hc
      simp only [runs_write] at h
      obtain ⟨w, fs₂, ⟨hw, hwok⟩, h⟩ := h
      obtain ⟨hr, rfl⟩ := Prog.runs_pure.1 h
      cases hr
      refine .inr (.inr ⟨rfl, hnone, hp, hok, w, hwok, ?_⟩)
      simp only [FS.written] at hw
      split at hw
      · rename_i hfail
        cases hw
        subst hfail
        refine ⟨?_, by omega⟩
        simp [FS.append]
      · split at hw
        · rename_i hcount
          cases hw
          exact ⟨rfl, hcount.2⟩
        · cases hw
    · cases hc

theorem complete_repo (k : Nat) (buf : List Byte) (r : Int) :
    Complete (.write (.repo k) buf) r ↔ r = buf.length := Iff.rfl

theorem writeSha1Buffer_refused (ok : (o : Op) → o.Res → Prop) (L : Lib) (s : Sha1)
    (buf : List Byte) {fs : FS} (e : Errno)
    (he : e = .EEXIST → fs.dir (sha1FileName L s) ≠ none)
    (hok : ok (.openExcl (sha1FileName L s)) (Except.error e)) :
    RunsTo ok fs (writeSha1Buffer L s buf) (.ok (if e = .EEXIST then 0 else -1)) fs := by
  simp only [writeSha1Buffer, runs_openExcl]
  refine ⟨.error e, fs, ⟨?_, hok⟩, Prog.runs_pure.2 ⟨rfl, rfl⟩⟩
  simp only [FS.created]
  rw [if_neg fun h => he h.1 h.2]

section Calls
variable {L : Lib} {fs : FS} {call : StoreCall} {calls : List StoreCall}

theorem StoreSound.honest_iff (hs : StoreSound L fs) (hu : call.Unique L)
    (h : RunsTo anyAnswer fs (writeSha1Buffer L call.sha1 call.buf) (.ok call.result) call.after) :
    call.Honest L ↔
      RunsTo Complete fs (writeSha1Buffer L call.sha1 call.buf) (.ok call.result) call.after := by
  rcases writeSha1Buffer_cases h with ⟨hr, hfs, hd, -⟩ | ⟨hr, hfs, e, he, -⟩ |
    ⟨hr, hd, hp, -, w, -, hfs, hw⟩
  · rw [StoreCall.Honest, hr, hfs]
    constructor
    · intro _
      exact writeSha1Buffer_refused Complete L _ _ .EEXIST (fun _ => hd) trivial
    · intro _ _
      obtain ⟨k, hk⟩ := Option.ne_none_iff_exists'.1 hd
      have hread : fs.read (sha1FileName L call.sha1) = some (fs.data k) := by
        rw [FS.read, hk, Option.map_some]
      rw [hread, (hu _).1 (hs.hash _ _ hread)]
  · rw [StoreCall.Honest, hr, hfs]
    constructor
    · intro _
      have hrun : RunsTo Complete fs (writeSha1Buffer L call.sha1 call.buf)
          (.ok (if e = .EEXIST then 0 else -1)) fs :=
        writeSha1Buffer_refused Complete L _ _ e (fun h => absurd h he) trivial
      rwa [if_neg he] at hrun
    · intro _ h0
      omega
  · rw [writeSha1Buffer_new complete_repo hd, hr, hfs]
    constructor
    · intro hhonest
      have hread := hhonest hr
      rw [hfs, FS.create_append_read hs.good, if_pos rfl, Option.some.injEq] at hread
      exact .inl ⟨rfl, hp, trivial, by rw [hread]⟩
    · rintro (⟨-, -, -, heq⟩ | ⟨h0, -⟩) -
      · rw [hfs, heq, FS.create_append_read hs.good, if_pos rfl]
      · cases h0

theorem StoreSound.complete (hs : StoreSound L fs) (hu : call.Unique L)
    (h : RunsTo Complete fs (writeSha1Buffer L call.sha1 call.buf) (.ok call.result) call.after) :
    StoreSound L call.after := by
  rcases writeSha1Buffer_cases h with ⟨-, hfs, -⟩ | ⟨-, hfs, -⟩ | ⟨-, hd, -, -, w, hw, hfs, -⟩
  · exact hfs ▸ hs
  · exact hfs ▸ hs
  · rw [(complete_repo _ _ _).1 hw, Int.toNat_natCast, List.take_length] at hfs
    rw [hfs]
    exact hs.store ((hu _).2 rfl)

/-- In any run of calls from a sound store, every object reported as stored is in its file if and
only if each of the writes could have been a complete one with the same effect. -/
theorem stored_iff_complete (hs : StoreSound L fs) (hu : ∀ call ∈ calls, call.Unique L)
    (h : StoreCalls anyAnswer L fs calls) :
    (∀ call ∈ calls, call.Honest L) ↔ StoreCalls Complete L fs calls := by
  induction calls generalizing fs with
  | nil => exact ⟨fun _ => .nil, fun _ _ hc => by cases hc⟩
  | cons call calls ih =>
    cases h with
    | cons h hrest =>
      have hstep := hs.honest_iff (hu call List.mem_cons_self) h
      have hu' : ∀ c ∈ calls, StoreCall.Unique L c := fun c hc => hu c (List.mem_cons_of_mem _ hc)
      rw [List.forall_mem_cons, hstep]
      constructor
      · rintro ⟨hfirst, hall⟩
        have hs' := hs.complete (hu call List.mem_cons_self) hfirst
        exact .cons hfirst ((ih hs' hu' hrest).1 hall)
      · intro hcalls
        cases hcalls with
        | cons hfirst hall =>
          have hs' := hs.complete (hu call List.mem_cons_self) hfirst
          exact ⟨hfirst, (ih hs' hu' hrest).2 hall⟩

end Calls

/-- A hash under which a buffer of one byte is alone. -/
def oneHash : Lib :=
  { storedLib with sha1 := fun b => List.Vector.replicate 20 (if b = [1] then 1 else 0) }

theorem oneHash_unique (b : List Byte) :
    oneHash.sha1 b = List.Vector.replicate 20 1 ↔ b = [1] := by
  by_cases hb : b = [1]
  · simp only [oneHash, hb, ↓reduceIte]
  · simp only [oneHash, hb, ↓reduceIte, iff_false]
    decide

theorem oneHash_name : (sha1FileName oneHash (List.Vector.replicate 20 1)).length < pathMax := by
  rw [sha1FileName_length, show oneHash.objectDirectory.length = 17 by decide]
  decide

theorem empty_sound (L : Lib) : StoreSound L FS.empty :=
  ⟨FS.empty_good, fun _ _ h => by cases h⟩

/-- The byte is stored in a fresh repository by a write that takes as many bytes as given. -/
def storeOne (n : Nat) : StoreCall where
  sha1 := List.Vector.replicate 20 1
  buf := [1]
  result := 0
  after := (FS.empty.create (sha1FileName oneHash (List.Vector.replicate 20 1))).append 0
    ([1].take n)

theorem storeOne_dir (n : Nat) :
    (storeOne n).after.dir (sha1FileName oneHash (List.Vector.replicate 20 1)) = some 0 :=
  FS.create_append_dir FS.empty _ _

theorem storeOne_again (n : Nat) : RunsTo anyAnswer (storeOne n).after
    (writeSha1Buffer oneHash (List.Vector.replicate 20 1) [1]) (.ok 0) (storeOne n).after :=
  writeSha1Buffer_refused anyAnswer oneHash _ _ .EEXIST
    (fun _ => by rw [storeOne_dir]; simp) trivial

theorem storeOne_unique (n : Nat) : ∀ call ∈ [storeOne n, storeOne n], call.Unique oneHash := by
  intro call hcall
  rw [(List.mem_pair.1 hcall).elim id id]
  exact oneHash_unique

theorem stored_iff_complete_two :
    (∀ call ∈ [storeOne 1, storeOne 1], call.Honest oneHash) ↔
      StoreCalls Complete oneHash FS.empty [storeOne 1, storeOne 1] := by
  have hrun : RunsTo Complete FS.empty
      (writeSha1Buffer oneHash (List.Vector.replicate 20 1) [1]) (.ok 0) (storeOne 1).after :=
    (writeSha1Buffer_new complete_repo rfl).2 (.inl ⟨rfl, oneHash_name, trivial, rfl⟩)
  exact stored_iff_complete (empty_sound oneHash) (storeOne_unique 1)
    (.cons (hrun.mono fun _ _ _ _ ha => ⟨ha.1, trivial⟩) (.cons (storeOne_again 1) .nil))

/-- The write takes none of the bytes, and the object is reported as stored; the next call finds the
empty file and reports the same. -/
theorem short_write_unnoticed : ¬ ∀ L fs calls, StoreSound L fs →
    (∀ call ∈ calls, call.Unique L) → StoreCalls anyAnswer L fs calls →
    ∀ call ∈ calls, call.Honest L := by
  intro hall
  have hfirst : RunsTo anyAnswer FS.empty
      (writeSha1Buffer oneHash (List.Vector.replicate 20 1) [1]) (.ok 0) (storeOne 0).after := by
    simp only [writeSha1Buffer, runs_openExcl]
    refine ⟨.ok (.repo 0), FS.empty.create (sha1FileName oneHash (List.Vector.replicate 20 1)),
      ⟨?_, trivial⟩, ?_⟩
    · simp only [FS.created]
      rw [if_pos ⟨rfl, rfl, oneHash_name⟩]
    · simp only [runs_write]
      exact ⟨0, _, ⟨by simp only [FS.written]; rfl, trivial⟩, Prog.runs_pure.2 ⟨rfl, rfl⟩⟩
  have hread : (storeOne 0).after.read (sha1FileName oneHash (List.Vector.replicate 20 1)) =
      some [] := by
    rw [FS.read, storeOne_dir]
    exact congrArg some (FS.create_append_data FS.empty _ _)
  have hhonest := hall oneHash FS.empty [storeOne 0, storeOne 0] (empty_sound oneHash)
    (storeOne_unique 0) (.cons hfirst (.cons (storeOne_again 0) .nil)) (storeOne 0)
    List.mem_cons_self rfl
  cases hread.symm.trans hhonest

end SelfGit
