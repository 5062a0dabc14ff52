import SelfGit.Lookup
import SelfGit.Terminal
import SelfGit.Versions

namespace SelfGit
open Foundation
set_option autoImplicit true

/-- `read_cache` makes the given cache, and entries, of the index of a repository. -/
structure Loads (L : Lib) (fs : FS) (es : List CacheEntry) (c : Cache) : Prop where
  result : readResult L (fs.read indexPath) = .ok ((es.length : Int), c)
  slots : ∃ rest, c.activeCache = es.map some ++ rest
  size : ∀ b, fs.read indexPath = some b → b.length < 2 ^ 64

theorem Loads.of_image {fs : FS} (h : fs.read indexPath = some (cacheImage L es))
    (h0 : 0 < es.length) (hn : es.length ≤ 1431655749) :
    Loads L fs (es.map CacheEntry.trim) (reloaded es) where
  result := by
    rw [h, List.length_map]
    exact (readBack_image (by omega)).trans (if_pos ⟨h0, hn⟩)
  slots := (reloaded_holds hn).slots
  size b hb := by
    rw [h, Option.some.injEq] at hb
    rw [← hb]
    exact cacheImage_length_lt L (by omega)

theorem readCache_undisturbed_iff {fs fs' : FS}
    (hsize : ∀ b, fs.read indexPath = some b → b.length < 2 ^ 64) :
    RunsTo Undisturbed fs (readCache L Cache.null) x fs' ↔
      fs' = fs ∧ x = readResult L (fs.read indexPath) := by
  constructor
  · exact readCache_undisturbed
  · rintro ⟨hfs, rfl⟩
    subst fs'
    cases hd : fs.dir indexPath with
    | none =>
      simp only [readCache, ne_eq, Cache.null, not_true_eq_false, ↓reduceIte, runs_accessDir]
      refine ⟨true, rfl, ?_⟩
      simp only [↓reduceIte, runs_openRead, undisturbed_openIndex, exists_eq_left, hd]
      rw [FS.read, hd]
      exact Prog.runs_pure.2 ⟨rfl, rfl⟩
    | some i =>
      have hread : fs.read indexPath = some (fs.data i) := by rw [FS.read, hd, Option.map_some]
      rw [hread]
      exact (readCache_run hd (hsize _ hread)).mono fun _ _ _ _ ha =>
        ⟨ha.1, Granted.undisturbed ha.2⟩

/-- The line of `status` on a path, while the index lists the given entries. -/
def statusLine (es : List CacheEntry) (p : CStr) : List Byte :=
  p.1 ++ (if es.any fun e => e.key = p.1 then str " has been added to cache!\n"
    else str " has not been added!\n")

def statusHeading : List (List Byte) := [str "cache entry status:\n", str "\n"]

section Status
variable {ok : (o : Op) → o.Res → Prop} {work : Path → Except Errno Stat} {w w' : Site}
  {es : List CacheEntry} {c : Cache}

theorem scanCache_any (hn : ∀ e ∈ es, e.Named) (rest : List (Option CacheEntry)) (p : CStr) :
    scanCache es.length (es.map some ++ rest) p.1 = some (es.any fun e => e.key = p.1) := by
  obtain ⟨found, hscan, hfound⟩ := scanCache_named hn rest p
  rw [hscan, Option.some.injEq, Bool.eq_iff_iff, hfound]
  simp only [List.any_eq_true, decide_eq_true_eq]

theorem statusLoop_shows (hn : ∀ e ∈ es, e.Named) (hc : c.activeCache = es.map some ++ rest)
    (words : List CStr) (f : Unit → GitProc α) :
    GitRuns ok work w (Console.statusLoop es.length c words >>= f) x w' ↔
      GitRuns ok work (w.shows ((words.filter verifyPath).map (statusLine es))) (f ()) x w' := by
  induction words generalizing w with
  | nil => rw [Console.statusLoop, pure_bind, List.filter_nil, List.map_nil, Site.shows_nil]
  | cons p words ih =>
    rw [Console.statusLoop]
    by_cases hp : verifyPath p = true
    · rw [if_pos hp, List.filter_cons_of_pos hp, hc, scanCache_any hn, Prog.ofOption, bind_assoc]
      change GitRuns ok work w (Console.say (statusLine es p) >>= _ >>= f) x w' ↔ _
      rw [bind_assoc, runs_say, ih, Site.shows_shows, List.map_cons, List.singleton_append]
    · rw [if_neg hp, List.filter_cons_of_neg hp, ih]

/-- A process that begins with `status` says of each path that it accepts, in order and once each,
whether the index lists it, and goes on as if nothing had happened. -/
theorem status_truthful {E : Env} (hb : Begins E.posix argv .status words rest code)
    (hl : Loads E.lib w.fs es c) (hn : ∀ e ∈ es, e.Named) :
    GitRuns Undisturbed work w (git E argv) x w' ↔
      GitRuns Undisturbed work
        (w.shows (statusHeading ++ ((words.drop 2).filter verifyPath).map (statusLine es)))
        (perform E rest c >>= fun _ => pure code) x w' := by
  obtain ⟨rest', hc⟩ := hl.slots
  have hread : ∀ y fs, RunsTo Undisturbed w.fs (readCache E.lib Cache.null) y fs ↔
      fs = w.fs ∧ y = .ok ((es.length : Int), c) := fun y fs => by
    rw [readCache_undisturbed_iff hl.size, hl.result]
  have hpos : ¬ (es.length : Int) < 0 := by omega
  rw [hb.git, Handler.run, Handler.body, Console.status]
  simp only [bind_assoc, runs_enter, runs_say, Site.shows_shows]
  change GitRuns Undisturbed work (w.shows statusHeading) _ x w' ↔ _
  rw [sys_reads (w := w.shows statusHeading) hread]
  simp only [hpos, ↓reduceIte, Int.toNat_natCast, bind_assoc, pure_bind]
  rw [statusLoop_shows hn hc, Site.shows_shows]

end Status

deriving instance DecidableEq for Action, Shown

def siteOf (fs : FS) : Site := ⟨fs, fun _ => none, fun _ => none, []⟩

theorem oneEntry_site : Loads storedEnv.lib (siteOf (oneEntry (plainEntry (cstr "a")))).fs
    [(plainEntry (cstr "a")).trim] (reloaded [plainEntry (cstr "a")]) := by
  have hread : (oneEntry (plainEntry (cstr "a"))).read indexPath =
      some (cacheImage storedLib [plainEntry (cstr "a")]) := by
    simp only [oneEntry, FS.read, Function.update_self, Option.map_some]
  exact Loads.of_image hread (by decide) (by decide)

theorem oneEntry_named : ∀ e ∈ [(plainEntry (cstr "a")).trim], e.Named := by
  intro e he
  rw [List.mem_singleton.1 he]
  exact CacheEntry.Named.trim (newEntry_named (by decide))

/-- Two paths, of which the index lists the first. -/
theorem status_truthful_two : ∃ w', GitRuns Undisturbed (fun _ => .error .ENOENT)
    (siteOf (oneEntry (plainEntry (cstr "a"))))
    (git storedEnv [cstr "git", cstr "--status", cstr "a", cstr "b"]) (.ok 0) w' ∧
    w'.out = [str "cache entry status:\n", str "\n", str "a has been added to cache!\n",
      str "b has not been added!\n", str "On branch master\n",
      str "Non-option argument b\n"].map .text := by
  have hb : Begins storedEnv.posix [cstr "git", cstr "--status", cstr "a", cstr "b"] .status
      [cstr "git", cstr "--status", cstr "a", cstr "b"]
      [.print (str "On branch master\n"), .print (str "Non-option argument b\n")] 0 := by
    unfold Begins
    decide +kernel
  have hrun : ∀ x w', GitRuns Undisturbed (fun _ => .error .ENOENT) _ _ x w' ↔ _ :=
    fun _ _ => status_truthful hb oneEntry_site oneEntry_named
  simp only [perform, bind_assoc, pure_bind, runs_say, Prog.runs_pure] at hrun
  refine ⟨_, (hrun _ _).2 ⟨rfl, rfl⟩, ?_⟩
  decide +kernel

end SelfGit
