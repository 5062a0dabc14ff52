import SelfGit.Answers
import SelfGit.Sessions

namespace SelfGit
open Foundation
set_option autoImplicit true

/-- How `read_cache` ends on a file with the given content. -/
def readBack (L : Lib) (b : List Byte) : Except Stop (Int × Cache) :=
  if headerSize < b.length then
    match loadCache L Cache.null b with
    | some r => .ok r
    | none => .error .fault
  else .error .fault

theorem defined_runs {ok : (o : Op) → o.Res → Prop} {a : Option (Int × Cache)} :
    RunsTo ok fs (defined a) x fs' ↔
      fs' = fs ∧ x = (match a with
        | some r => .ok r
        | none => .error .fault) := by
  refine (Prog.runs_ofOption a Stop.fault).trans ?_
  cases a with
  | none => simp [and_comm]
  | some r => simp [and_comm]

/-- How `read_cache` ends with nothing in its way, on an index or its absence. -/
def readResult (L : Lib) : Option (List Byte) → Except Stop (Int × Cache)
  | none => .ok (0, Cache.null)
  | some b => readBack L b

def Undisturbed : (o : Op) → o.Res → Prop
  | .openRead _, (r : Except Errno Fd) => ∀ e, r = .error e → e = .ENOENT
  | o, r => Granted o r

theorem Granted.undisturbed (h : Granted o r) : Undisturbed o r := by
  cases o with
  | openRead p =>
    obtain ⟨fd, rfl⟩ := h
    intro e he
    cases he
  | _ => exact h

theorem undisturbed_openIndex {fs : FS} (r : Except Errno Fd) :
    fs.opened indexPath r = some fs ∧ Undisturbed (.openRead indexPath) r ↔
      r = (match fs.dir indexPath with
        | some i => .ok (.repo i)
        | none => .error .ENOENT) := by
  have hpath : ¬ pathMax ≤ indexPath.length := by decide
  rw [FS.opened.eq_def, if_neg hpath]
  cases hd : fs.dir indexPath with
  | none =>
    cases r with
    | error e =>
      refine ⟨fun h => by rw [h.2 e rfl], fun h => ⟨rfl, ?_⟩⟩
      rintro e' he
      cases h
      exact (Except.error.inj he).symm
    | ok fd => cases fd <;> simp
  | some i =>
    cases r with
    | error e =>
      refine ⟨fun h => ?_, fun h => by cases h⟩
      have he := h.2 e rfl
      simp [he] at h
    | ok fd =>
      refine ⟨fun h => ?_, fun h => ?_⟩
      · by_cases hfd : fd = .repo i
        · rw [hfd]
        · simp [hfd] at h
      · cases h
        exact ⟨by simp, fun e he => by cases he⟩

theorem readCache_undisturbed (h : RunsTo Undisturbed fs (readCache L Cache.null) x fs') :
    fs' = fs ∧ x = readResult L (fs.read indexPath) := by
  simp only [readCache, ne_eq, Cache.null, not_true_eq_false, ↓reduceIte, runs_accessDir] at h
  obtain ⟨r, hr : r = true, h⟩ := h
  subst hr
  simp only [↓reduceIte, runs_openRead, undisturbed_openIndex, exists_eq_left] at h
  rw [FS.read]
  cases hd : fs.dir indexPath with
  | none =>
    simp only [hd] at h
    obtain ⟨rfl, rfl⟩ := Prog.runs_pure.1 h
    exact ⟨rfl, rfl⟩
  | some i =>
    simp only [hd, runs_fstat] at h
    obtain ⟨_, hst, h⟩ := h
    obtain ⟨st, rfl, hsz⟩ := granted_fstat.1 hst
    simp only [gt_iff_lt, hsz] at h
    rw [Option.map_some, readResult, readBack]
    by_cases hh : headerSize < (fs.data i).length
    · rw [if_pos hh]
      rw [if_pos hh, runs_mmap] at h
      obtain ⟨_, hm, h⟩ := h
      obtain ⟨rfl, -⟩ := granted_mmap.1 hm
      rw [List.take_length] at h
      exact defined_runs.1 h
    · rw [if_neg hh]
      rw [if_neg hh] at h
      exact (Prog.runs_halt.1 h).symm

theorem readCache_result (hd : fs.dir indexPath = some i)
    (h : RunsTo Granted fs (readCache L Cache.null) x fs') :
    fs' = fs ∧ x = readBack L (fs.data i) := by
  have hu : RunsTo Undisturbed fs (readCache L Cache.null) x fs' :=
    h.mono fun _ _ _ _ ha => ⟨ha.1, Granted.undisturbed ha.2⟩
  obtain ⟨hfs, hx⟩ := readCache_undisturbed hu
  rw [FS.read, hd] at hx
  exact ⟨hfs, hx⟩

theorem readCache_run (hd : fs.dir indexPath = some i) (hl : (fs.data i).length < 2 ^ 64) :
    RunsTo Granted fs (readCache L Cache.null) (readBack L (fs.data i)) fs := by
  have hpath : indexPath.length < pathMax := by decide
  simp only [readCache, ne_eq, Cache.null, not_true_eq_false, ↓reduceIte, runs_accessDir,
    granted_accessDir, exists_eq_left, runs_openRead, granted_openRead hd hpath, runs_fstat,
    granted_fstat]
  obtain ⟨st, hst⟩ := exists_stat hl
  refine ⟨_, ⟨st, rfl, hst⟩, ?_⟩
  rw [readBack]
  by_cases hh : headerSize < (fs.data i).length
  · rw [if_pos hh]
    simp only [hst, gt_iff_lt, hh, ↓reduceIte, runs_mmap, granted_mmap]
    refine ⟨_, ⟨rfl, Nat.le_refl _, by omega⟩, ?_⟩
    rw [List.take_length]
    exact defined_runs.2 ⟨rfl, rfl⟩
  · rw [if_neg hh]
    simp only [hst, gt_iff_lt, hh, ↓reduceIte]
    exact Prog.runs_halt.2 ⟨rfl, rfl⟩

theorem readCache_runs (hd : fs.dir indexPath = some i) (hl : (fs.data i).length < 2 ^ 64) :
    RunsTo Granted fs (readCache L Cache.null) x fs' ↔
      fs' = fs ∧ x = readBack L (fs.data i) := by
  constructor
  · exact readCache_result hd
  · rintro ⟨rfl, rfl⟩
    exact readCache_run hd hl

/-- Whatever the answers, `read_cache` gives up or ends as with nothing in its way. -/
theorem readCache_outcome {ok : (o : Op) → o.Res → Prop}
    (h : RunsTo ok fs (readCache L Cache.null) x fs') :
    fs' = fs ∧ (x = .ok (-1, Cache.null) ∨ x = readResult L (fs.read indexPath)) := by
  have hpath : ¬ pathMax ≤ indexPath.length := by decide
  simp only [readCache, ne_eq, Cache.null, not_true_eq_false, ↓reduceIte, runs_accessDir] at h
  obtain ⟨r, -, h⟩ := h
  cases r with
  | false =>
    obtain ⟨rfl, rfl⟩ := Prog.runs_pure.1 h
    exact ⟨rfl, .inl rfl⟩
  | true =>
    simp only [↓reduceIte, runs_openRead] at h
    obtain ⟨r, ⟨hopen, -⟩, h⟩ := h
    cases r with
    | error e =>
      obtain ⟨rfl, rfl⟩ := Prog.runs_pure.1 h
      refine ⟨rfl, ?_⟩
      by_cases he : e = .ENOENT
      · subst he
        cases hd : fs'.dir indexPath with
        | none => exact .inr (by simp [FS.read, hd, readResult, Cache.null])
        | some i =>
          rw [FS.opened.eq_def, if_neg hpath] at hopen
          simp [hd] at hopen
      · exact .inl (by simp [he, Cache.null])
    | ok fd =>
      obtain ⟨i, hd, rfl⟩ : ∃ i, fs.dir indexPath = some i ∧ fd = .repo i := by
        cases hd : fs.dir indexPath with
        | none =>
          rw [FS.opened.eq_def, if_neg hpath] at hopen
          cases fd <;> simp [hd] at hopen
        | some i => exact ⟨i, rfl, (FS.opened_ok hd hopen).2⟩
      rw [FS.read, hd, Option.map_some, readResult, readBack]
      simp only [runs_fstat] at h
      obtain ⟨r, ⟨hstat, -⟩, h⟩ := h
      cases r with
      | none =>
        obtain ⟨rfl, rfl⟩ := Prog.runs_pure.1 h
        exact ⟨rfl, .inl rfl⟩
      | some st =>
        simp only [FS.statted_ok hstat] at h
        by_cases hh : headerSize < (fs.data i).length
        · simp only [gt_iff_lt, hh, ↓reduceIte, runs_mmap] at h
          obtain ⟨r, ⟨hmap, -⟩, h⟩ := h
          cases r with
          | none =>
            obtain ⟨rfl, rfl⟩ := Prog.runs_pure.1 h
            exact ⟨rfl, .inl rfl⟩
          | some m =>
            have hm := (FS.mapped_ok hmap).1
            rw [List.take_length] at hm
            subst hm
            rw [if_pos hh]
            rcases (Prog.runs_ofOption _ _).1 h with ⟨r, hr, rfl, rfl⟩ | ⟨hr, rfl, rfl⟩
            · exact ⟨rfl, .inr (by rw [Cache.null, hr])⟩
            · exact ⟨rfl, .inr (by rw [Cache.null, hr])⟩
        · simp only [gt_iff_lt, hh, ↓reduceIte, Prog.runs_halt] at h
          obtain ⟨rfl, rfl⟩ := h
          exact ⟨rfl, .inr (by rw [if_neg hh])⟩

theorem readBack_image (hn : es.length < 2 ^ 31) :
    readBack L (cacheImage L es) =
      if 0 < es.length ∧ es.length ≤ 1431655749 then .ok ((es.length : Int), reloaded es)
      else .error .fault := by
  have hlong := cacheImage_longer L es
  rw [readBack]
  by_cases h0 : 0 < es.length
  · rw [if_pos (hlong.2 (List.ne_nil_of_length_pos h0))]
    by_cases hle : es.length ≤ 1431655749
    · rw [loadCache_cacheImage L _ hle, if_pos ⟨h0, hle⟩]
    · rw [loadCache_overflow L _ (by omega) hn, if_neg (fun h => hle h.2)]
  · rw [if_neg (fun h => h0 (List.length_pos_of_ne_nil (hlong.1 h))), if_neg (fun h => h0 h.1)]

/-- `read_cache` accepts the index as one of so many entries, with nothing in its way. -/
def Reloads (L : Lib) (fs : FS) (n : Nat) : Prop :=
  ∀ x fs', RunsTo Granted fs (readCache L Cache.null) x fs' → ∃ c, x = .ok ((n : Int), c)

/-- In every state that a sequence of runs leads to, the index is the image of some entries, and
it can be loaded if and only if there is an entry and the capacity for them does not wrap. -/
theorem session_reloads (hg : fs.Good) (h0 : fs.dir indexPath = none)
    (h : Session L anyAnswer fs fs') (hb : fs'.read indexPath = some b) :
    ∃ es, b = cacheImage L es ∧
      (Reloads L fs' es.length ↔ 0 < es.length ∧ es.length ≤ 1431655749) := by
  obtain ⟨-, hI⟩ := h.image (P := fun _ => True) ⟨trivial, fun _ _ => trivial⟩
    (fun _ _ _ _ _ he hc hP => he.preserves (fun _ _ _ _ _ _ _ _ _ _ _ => trivial)
      (fun _ _ _ _ _ _ _ _ _ => trivial) hc hP) hg h0
  rw [hb] at hI
  obtain ⟨es, hn, rfl, -⟩ := hI
  refine ⟨es, rfl, ?_⟩
  obtain ⟨i, hd, hdata⟩ := Option.map_eq_some_iff.1 hb
  have hruns : ∀ x fs'', RunsTo Granted fs' (readCache L Cache.null) x fs'' ↔
      fs'' = fs' ∧ x = readBack L (cacheImage L es) := by
    intro x fs''
    rw [readCache_runs hd (hdata ▸ cacheImage_length_lt L hn), hdata]
  simp only [Reloads, hruns, readBack_image hn]
  constructor
  · intro hall
    obtain ⟨c, hc⟩ := hall _ _ ⟨rfl, rfl⟩
    by_contra hno
    rw [if_neg hno] at hc
    cases hc
  · rintro hyes x fs'' ⟨-, rfl⟩
    rw [if_pos hyes]
    exact ⟨_, rfl⟩

/-- One file is added, and the index loads again. -/
theorem session_reloads_one : ∃ fs, Session storedLib anyAnswer FS.empty fs ∧
    fs.read indexPath = some (cacheImage storedLib [sampleEntry "a" 120]) ∧
    ∃ es, cacheImage storedLib [sampleEntry "a" 120] = cacheImage storedLib es ∧
      (Reloads storedLib fs es.length ↔ 0 < es.length ∧ es.length ≤ 1431655749) := by
  have hrun : (Config.drive turn (FS.serve [(str "a", str "x")]) (List.replicate 12 ())
      (alone storedLib [cstr "git", cstr "a"] FS.empty)).map
        (fun c => c.shared.read indexPath) =
      some (some (cacheImage storedLib [sampleEntry "a" 120])) := by
    decide +kernel
  obtain ⟨c, hc, hread⟩ := Option.map_eq_some_iff.1 hrun
  have hs : Session storedLib anyAnswer FS.empty c.shared :=
    Session.start.drive (fun _ _ _ _ h => ⟨h, trivial⟩) hc
  exact ⟨_, hs, hread, session_reloads FS.empty_good rfl hs hread⟩

/-- Add a file that does not exist to a fresh repository: the index of no entries that is
installed makes the next reader follow a null pointer. -/
theorem empty_index_unreadable : ∃ fs, Session storedLib anyAnswer FS.empty fs ∧
    fs.read indexPath = some (cacheImage storedLib []) ∧
    (∃ fs', RunsTo Granted fs (readCache storedLib Cache.null) (.error .fault) fs') ∧
    ¬ Reloads storedLib fs 0 := by
  have hrun : (Config.drive turn (FS.serve []) (List.replicate 7 ())
      (alone storedLib [cstr "git", cstr "a"] FS.empty)).map
        (fun c => c.shared.read indexPath) = some (some (cacheImage storedLib [])) := by
    decide +kernel
  obtain ⟨c, hc, hread⟩ := Option.map_eq_some_iff.1 hrun
  obtain ⟨i, hd, hdata⟩ := Option.map_eq_some_iff.1 hread
  have hfault : RunsTo Granted c.shared (readCache storedLib Cache.null) (.error .fault)
      c.shared := by
    rw [readCache_runs hd (hdata ▸ cacheImage_length_lt storedLib (by decide)), hdata,
      readBack_image (by decide)]
    exact ⟨rfl, by rw [if_neg (by decide)]⟩
  refine ⟨_, Session.start.drive (fun _ _ _ _ h => ⟨h, trivial⟩) hc, hread, ⟨_, hfault⟩, ?_⟩
  intro hall
  obtain ⟨m, hm⟩ := hall _ _ hfault
  cases hm

end SelfGit
