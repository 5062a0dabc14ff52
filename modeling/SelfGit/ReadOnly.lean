import SelfGit.SharedStore

namespace SelfGit
open Foundation
set_option autoImplicit true

def GitOp.edits : GitOp → Prop
  | .console (.sys o) => Changing o
  | _ => False

/-- The operations that change the repository, or let a command do so. -/
def GitOp.changes : GitOp → Prop
  | .console (.sys o) => Changing o
  | .console (.popen _) => True
  | _ => False

theorem GitOp.changes_of_edits : ∀ {o : GitOp}, o.edits → o.changes
  | .console (.sys _), h => h

def Handler.writes : Handler → Bool
  | .updateCache | .commit => true
  | _ => false

section Quiet
variable {L : Lib} {E : Env} {c : Cache}

theorem sys_quiet {p : Proc α} (h : p.Avoids Changing) :
    (Console.sys p).Avoids GitOp.changes := h.embed fun _ hs => hs

theorem say_quiet (t : List Byte) : (Console.say t).Avoids GitOp.changes := Prog.avoids_ask id

theorem sayAll_quiet (ts : List (List Byte)) : (Console.sayAll ts).Avoids GitOp.changes := by
  induction ts with
  | nil => exact Prog.avoids_pure _
  | cons t ts ih => exact Prog.Avoids.bind (say_quiet t) fun _ => ih

theorem readSha1File_quiet (L : Lib) (s : Sha1) :
    (Console.sys (readSha1File L s)).Avoids GitOp.changes :=
  sys_quiet ((readSha1File_looks L s).mono fun _ => .inl)

theorem statusLoop_quiet (n : Nat) (c : Cache) (words : List CStr) :
    (Console.statusLoop n c words).Avoids GitOp.changes := by
  induction words with
  | nil => exact Prog.avoids_pure _
  | cons p words ih =>
    rw [Console.statusLoop]
    split
    · refine Prog.Avoids.bind (Prog.avoids_ofOption _ _) fun found => ?_
      exact Prog.Avoids.bind (say_quiet _) fun _ => ih
    · exact ih

theorem sayNames_quiet (n : Nat) (slots : List (Option CacheEntry)) :
    (Console.sayNames n slots).Avoids GitOp.changes := by
  induction n generalizing slots with
  | zero => exact Prog.avoids_pure _
  | succ n ih =>
    cases slots with
    | nil => exact Prog.avoids_halt _
    | cons slot slots =>
      cases slot with
      | none => exact Prog.avoids_halt _
      | some ce =>
        refine Prog.Avoids.bind (Prog.avoids_ofOption _ _) fun k => ?_
        exact Prog.Avoids.bind (say_quiet _) fun _ => ih slots

theorem showDifferences_edits (name : List Byte) (old : Option (List Byte × Nat × List Byte)) :
    (Console.onConsole (showDifferences name old)).Avoids GitOp.edits := by
  rw [showDifferences.eq_def, Console.onConsole_bind]
  refine Prog.Avoids.bind (Prog.avoids_ask id) fun r => ?_
  split
  · split
    · exact Prog.avoids_ask id
    · exact Prog.avoids_halt _
  · exact Prog.avoids_halt _

theorem showEntries_edits (n : Nat) (slots : List (Option CacheEntry)) :
    (Console.onConsole (showEntries L n slots)).Avoids GitOp.edits := by
  have hsay : ∀ t, (Console.say t).Avoids GitOp.edits := fun _ => Prog.avoids_ask id
  induction n generalizing slots with
  | zero => exact Prog.avoids_pure _
  | succ n ih =>
    cases slots with
    | nil => exact Prog.avoids_halt _
    | cons slot slots =>
      cases slot with
      | none => exact Prog.avoids_halt _
      | some ce =>
        rw [showEntries, Console.onConsole_bind]
        refine Prog.Avoids.bind ?_ fun _ => ih slots
        rw [showEntry, Console.onConsole_bind, Console.onConsole_ofOption]
        refine Prog.Avoids.bind (Prog.avoids_ofOption _ _) fun k => ?_
        rw [Console.onConsole_bind]
        refine Prog.Avoids.bind (Prog.avoids_ask id) fun r => ?_
        cases r with
        | error e => exact Prog.avoids_halt _
        | ok st =>
          dsimp only
          split
          · exact hsay _
          · rw [Console.onConsole_bind]
            refine Prog.Avoids.bind (hsay _) fun _ => ?_
            rw [Console.onConsole_bind, Console.onConsole_onRepo]
            refine Prog.Avoids.bind ?_ fun old => showDifferences_edits _ _
            exact (readSha1File_quiet L ce.sha1).mono fun _ => GitOp.changes_of_edits

theorem updateCache_again (argv : List CStr) (h : c.activeCache ≠ []) :
    Handler.updateCache.body E argv c = pure c := by
  rw [Handler.body, updateCache_loaded E.lib argv h]
  rfl

theorem commit_again (argv : List CStr) (h : c.activeCache ≠ []) :
    Handler.commit.body E argv c =
      Console.sys (memory 20) >>= fun _ => Prog.halt (.exit 1) := by
  change Console.commit E.lib argv E.surroundings c = _
  rw [Console.commit]
  refine bind_congr fun sha1 => ?_
  rw [Console.writeTree, readCache_loaded E.lib h]
  rfl

theorem showDiff_again (argv : List CStr) (h : c.activeCache ≠ []) :
    Handler.showDiff.body E argv c = Prog.halt (.exit 1) := by
  rw [Handler.body, Console.showDiff, readCache_loaded E.lib h]
  rfl

/-- A handler changes the repository only if it is there to do so or starts commands. -/
theorem Handler.body_quiet (h : Handler) (argv : List CStr)
    (hq : (h.writes = false ∧ h ≠ .showDiff) ∨ c.activeCache ≠ []) :
    (h.body E argv c).Avoids GitOp.changes := by
  have hloads : (Console.sys (readCache E.lib c)).Avoids GitOp.changes :=
    sys_quiet (readCache_looks E.lib c)
  cases h with
  | init =>
    refine Prog.Avoids.bind ?_ fun _ => Prog.avoids_pure _
    exact (Prog.avoids_never _).embed fun _ hs => hs
  | status =>
    refine Prog.Avoids.bind ?_ fun _ => Prog.avoids_pure _
    refine Prog.Avoids.bind (say_quiet _) fun _ => Prog.Avoids.bind (say_quiet _) fun _ => ?_
    refine Prog.Avoids.bind hloads fun r => ?_
    dsimp only
    split
    · exact Prog.avoids_pure _
    · exact Prog.Avoids.bind (statusLoop_quiet _ _ _) fun _ => Prog.avoids_pure _
  | updateCache =>
    rw [updateCache_again argv (hq.resolve_left fun hw => absurd hw.1 (by decide))]
    exact Prog.avoids_pure _
  | showDiff =>
    rw [showDiff_again argv (hq.resolve_left fun hw => hw.2 rfl)]
    exact Prog.avoids_halt _
  | commit =>
    rw [commit_again argv (hq.resolve_left fun hw => absurd hw.1 (by decide))]
    exact Prog.Avoids.bind (sys_quiet (Prog.avoids_ask id)) fun _ => Prog.avoids_halt _
  | removeFunction =>
    change (Console.removeFunction E.lib argv c).Avoids _
    rw [Console.removeFunction]
    split
    · exact Prog.avoids_halt _
    · refine Prog.Avoids.bind ?_ fun c' => ?_
      · refine Prog.Avoids.bind (sys_quiet (cacheNamePos_looks _ _ _ _)) fun r => ?_
        refine Prog.Avoids.bind (say_quiet _) fun _ => ?_
        split
        · exact Prog.Avoids.bind (Prog.avoids_ofOption _ _) fun _ => Prog.avoids_pure _
        · exact Prog.avoids_pure _
      · exact Prog.Avoids.bind (sayNames_quiet _ _) fun _ => Prog.avoids_pure _
  | catFile =>
    refine Prog.Avoids.bind ?_ fun _ => Prog.avoids_pure _
    rw [Console.catFile.eq_def]
    split
    · split
      · exact Prog.avoids_halt _
      · refine Prog.Avoids.bind (readSha1File_quiet _ _) fun r => ?_
        cases r with
        | none => exact Prog.avoids_halt _
        | some r =>
          refine Prog.Avoids.bind (Prog.avoids_ask id) fun r => ?_
          cases r with
          | error e => exact Prog.avoids_halt _
          | ok name => exact Prog.Avoids.bind (Prog.avoids_ask id) fun n => say_quiet _
    · exact Prog.avoids_halt _
  | readTree =>
    refine Prog.Avoids.bind ?_ fun _ => Prog.avoids_pure _
    rw [Console.readTree.eq_def]
    split
    · split
      · exact Prog.avoids_halt _
      · refine Prog.Avoids.bind (readSha1File_quiet _ _) fun r => ?_
        cases r with
        | none => exact Prog.avoids_halt _
        | some r =>
          dsimp only
          split
          · refine Prog.Avoids.bind (sayAll_quiet _) fun _ => ?_
            split
            · exact Prog.avoids_pure _
            · exact Prog.avoids_halt _
            · exact Prog.avoids_halt _
          · exact Prog.avoids_halt _
    · exact Prog.avoids_halt _

theorem Handler.body_edits (h : Handler) (argv : List CStr) (hw : h.writes = false) :
    (h.body E argv c).Avoids GitOp.edits := by
  by_cases hdiff : h = .showDiff
  · subst hdiff
    change (Console.onConsole (Console.showDiff E c)).Avoids _
    rw [Console.showDiff, Console.onConsole_bind, Console.onConsole_onRepo]
    have hloads : (Console.sys (readCache E.lib c)).Avoids GitOp.edits :=
      (sys_quiet (readCache_looks E.lib c)).mono fun _ => GitOp.changes_of_edits
    refine Prog.Avoids.bind hloads fun r => ?_
    dsimp only
    split
    · exact Prog.avoids_halt _
    · rw [Console.onConsole_bind]
      exact Prog.Avoids.bind (showEntries_edits _ _) fun _ => Prog.avoids_pure _
  · exact (h.body_quiet argv (.inl ⟨hw, hdiff⟩)).mono fun _ => GitOp.changes_of_edits

theorem removeFunction_again (argv : List CStr) (hc : c.activeCache ≠ []) :
    (Console.removeFunction L argv c).Yields fun c' => c'.activeCache ≠ [] := by
  rw [Console.removeFunction]
  split
  · exact Prog.yields_halt _
  · refine Prog.Yields.bind (S := fun c' => c'.activeCache ≠ []) ?_ fun c' hc' =>
      Prog.Yields.bind (Prog.yields_any _) fun _ _ => Prog.yields_pure hc'
    have hpos : ∀ name namelen, Console.sys (Remove.cacheNamePos L c name namelen) =
        pure (-1, c) := by
      intro name namelen
      rw [Remove.cacheNamePos, readCache_loaded L hc]
      rfl
    rw [Console.removeFileFromCache, hpos, pure_bind]
    refine Prog.Yields.bind (Prog.yields_any _) fun _ _ => ?_
    split
    · refine Prog.Yields.bind (Prog.yields_ofOption _ fun _ h => h) fun slots hslots => ?_
      refine Prog.yields_pure ?_
      rw [← List.length_pos_iff_ne_nil, shiftDown_length hslots]
      exact List.length_pos_of_ne_nil hc
    · exact Prog.yields_pure hc

theorem Handler.body_again (h : Handler) (argv : List CStr) (hc : c.activeCache ≠ []) :
    (h.body E argv c).Yields fun c' => c'.activeCache ≠ [] := by
  have hkept : ∀ {α : Type} (p : GitProc α), (do
      let _ ← p
      return c : GitProc Cache).Yields fun c' => c'.activeCache ≠ [] := fun p =>
    Prog.Yields.bind (Prog.yields_any p) fun _ _ => Prog.yields_pure hc
  cases h with
  | init => exact hkept _
  | catFile => exact hkept _
  | readTree => exact hkept _
  | removeFunction => exact removeFunction_again argv hc
  | updateCache =>
    rw [updateCache_again argv hc]
    exact Prog.yields_pure hc
  | commit =>
    rw [commit_again argv hc]
    exact Prog.Yields.bind (Prog.yields_any _) fun _ _ => Prog.yields_halt _
  | showDiff =>
    rw [showDiff_again argv hc]
    exact Prog.yields_halt _
  | status =>
    rw [Handler.body, Console.status, readCache_loaded E.lib hc]
    simp only [bind_assoc]
    refine Prog.Yields.bind (Prog.yields_any _) fun _ _ => ?_
    exact Prog.Yields.bind (Prog.yields_any _) fun _ _ => Prog.yields_pure hc

theorem perform_again (actions : List Action) (hc : c.activeCache ≠ []) :
    (perform E actions c).Avoids GitOp.changes := by
  induction actions generalizing c with
  | nil => exact Prog.avoids_pure _
  | cons a actions ih =>
    cases a with
    | print t => exact Prog.Avoids.bind (say_quiet t) fun _ => ih hc
    | call h argv =>
      rw [perform, Handler.run, bind_assoc]
      refine Prog.Avoids.bind (Prog.avoids_ask id) fun _ => ?_
      exact (h.body_quiet argv (.inr hc)).bind_yields (h.body_again argv hc) fun c' hc' => ih hc'

theorem perform_edits (actions : List Action)
    (hq : ∀ h argv, (h, argv) ∈ handlerCalls actions → h.writes = false) :
    (perform E actions c).Avoids GitOp.edits := by
  induction actions generalizing c with
  | nil => exact Prog.avoids_pure _
  | cons a actions ih =>
    cases a with
    | print t => exact Prog.Avoids.bind (Prog.avoids_ask id) fun _ => ih hq
    | call h argv =>
      rw [perform, Handler.run, bind_assoc]
      refine Prog.Avoids.bind (Prog.avoids_ask id) fun _ => ?_
      refine Prog.Avoids.bind (h.body_edits argv (hq h argv List.mem_cons_self)) fun c' => ?_
      exact ih fun h' argv' hmem => hq h' argv' (List.mem_cons_of_mem _ hmem)

end Quiet

section Processes
variable {Pid : Type} {E : Pid → Env} {argv : Pid → List CStr} {fs fs' : FS} {v : Pid → View}
  {c : GitMachine Pid} {i : Pid} {shell : List Byte → FS → FS → Prop}
  {V : FS → Option (List Byte) → Prop} {lib : Pid → Lib}

/-- An operation that is no edit leaves the repository alone, also where it starts a command. -/
theorem Shared.quiet {o : GitOp} {r : o.Res} (hcalm : Calm shell V) (h : Shared V lib fs v)
    (ha : (v i).gitMay W anyAnswer o) (ho : ¬ o.edits) (hs : GitOp.Acts shell fs o r fs') :
    fs' = fs := by
  cases o with
  | console o =>
    cases o with
    | sys o => exact step_unchanged ho hs
    | popen cmd => exact h.popen hcalm ha hs
    | _ => exact hs
  | _ => exact hs

variable [DecidableEq Pid]

/-- Processes whose command lines call neither `update_cache` nor `commit` leave a repository of
plain names as it is, whatever else they do and however they are interleaved or cut short. -/
theorem only_add_and_commit_change (hshell : Harmless shell) (hg : fs.Good)
    (hplain : PlainNames (fs.read indexPath))
    (hq : ∀ i h argv', (h, argv') ∈ gitCalls (E i).posix (argv i) →
      h ≠ .updateCache ∧ h ≠ .commit)
    (hr : Config.Reaches (gitAnswered shell) (gitRunning E argv fs) c) : c.shared = fs := by
  have hV : Lineage (Told E argv) anyAnswer fun _ s => PlainNames s := by
    refine plain_lineage ?_
    rintro L words ⟨i, argv', -, hcall, -⟩
    exact absurd rfl (hq i _ _ hcall).1
  have hcalm : Calm shell fun _ s => PlainNames s := ⟨hshell, fun _ _ => id⟩
  have hquiet : ∀ (c₁ : GitMachine Pid) i o k (r : o.Res) w,
      Config.Reaches (gitAnswered shell) (gitRunning E argv fs) c₁ → c₁.prog i = .call o k →
      ¬ o.edits → gitAnswered shell c₁ i o r w → w = c₁.shared := by
    intro c₁ i o k r w hreach hp ho ha
    have h := InConcert.reaches hV hcalm hg hplain hreach
    exact h.joint.quiet hcalm (h.allows hp) ho ha
  refine (hr.unchanged hquiet fun i => ?_).1
  obtain ⟨actions, code, hmain, hgit⟩ := git_perform (E i) (argv i)
  change (git (E i) (argv i)).Avoids GitOp.edits
  rw [hgit]
  refine Prog.Avoids.bind (perform_edits actions fun h argv' hmem => ?_) fun _ =>
    Prog.avoids_pure _
  obtain ⟨hupdate, hcommit⟩ := hq i h argv' (by rw [gitCalls, hmain]; exact hmem)
  cases h with
  | updateCache => exact absurd rfl hupdate
  | commit => exact absurd rfl hcommit
  | _ => rfl

end Processes

def GitOp.starts : GitOp → Bool
  | .console (.popen _) => true
  | _ => false

def statusAndDiff (second : Bool) : List CStr :=
  if second then [cstr "git", cstr "-d"] else [cstr "git", cstr "-s", cstr "a"]

theorem indexed_plain : PlainNames ((FS.indexed storedLib (linked (cstr "a"))).read indexPath) := by
  rw [indexed_read]
  refine plainNames_image (by decide) fun e he => ?_
  rw [List.mem_singleton.1 he]
  exact newEntry_tame (by decide) (PlainName.single (by decide +kernel) (by decide) (by decide)) _ _

/-- The second has started its command for the changed file. -/
theorem only_add_and_commit_change_two : ∃ c : GitMachine Bool,
    Config.Reaches (gitAnswered freeShell) (gitRunning (fun _ => storedEnv) statusAndDiff
      (FS.indexed storedLib (linked (cstr "a")))) c ∧
    ((c.past false).length, (c.past true).any fun e => e.1.starts) =
      (9, true) ∧
    c.shared = FS.indexed storedLib (linked (cstr "a")) := by
  obtain ⟨c, hc, hn⟩ : ∃ c, Config.drive gitTurn (GitOp.serve [])
      (List.replicate 11 true ++ List.replicate 9 false) (gitRunning (fun _ => storedEnv)
      statusAndDiff (FS.indexed storedLib (linked (cstr "a")))) = some c ∧
      ((c.past false).length, (c.past true).any fun e => e.1.starts) =
        (9, true) := by
    rw [← Option.map_eq_some_iff]
    decide +kernel
  have hr : Config.Reaches (gitAnswered freeShell) _ c :=
    Config.drive_reaches (fun _ _ _ _ h => .of_step (fun _ _ _ _ _ => rfl) h) (fun _ => rfl) hc
  have hq : ∀ i, ∀ call ∈ gitCalls storedEnv.posix (statusAndDiff i),
      call.1 ≠ .updateCache ∧ call.1 ≠ .commit := by
    decide +kernel
  exact ⟨c, hr, hn, only_add_and_commit_change freeShell_harmless (indexed_good _ _)
    indexed_plain (fun i h argv' hmem => hq i (h, argv') hmem) hr⟩

/-- Everything behind the handler that has loaded an index leaves the repository alone;
`update_cache` then does nothing, and `commit` and `show_diff` end the process. -/
theorem one_load_a_process (E : Env) (argv : List CStr) : ∃ actions code,
    main E.posix argv = some (actions, code) ∧ ∀ before after, actions = before ++ after →
      git E argv = perform E before Cache.null >>= (fun c => perform E after c >>= fun _ =>
        pure code) ∧
      ∀ c, c.activeCache ≠ [] → (perform E after c).Avoids GitOp.changes ∧
        (∀ words, Handler.updateCache.body E words c = pure c) ∧
        (∀ words, Handler.commit.body E words c =
          Console.sys (memory 20) >>= fun _ => Prog.halt (.exit 1)) ∧
        ∀ words, Handler.showDiff.body E words c = Prog.halt (.exit 1) := by
  obtain ⟨actions, code, hmain, hgit⟩ := git_perform E argv
  refine ⟨actions, code, hmain, ?_⟩
  rintro before after rfl
  refine ⟨?_, fun c hc => ⟨perform_again after hc, fun words => updateCache_again words hc,
    fun words => commit_again words hc, fun words => showDiff_again words hc⟩⟩
  rw [hgit, perform_append, bind_assoc]

end SelfGit
