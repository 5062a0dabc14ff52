import SelfGit.Sharing

namespace SelfGit
open Foundation
set_option autoImplicit true

/-- The indexes that runs of `update_cache` with words in `W` make, each of an earlier one. -/
inductive Version (W : Lib → List CStr → Prop) (first : Option (List Byte)) :
    Option (List Byte) → Prop
  | first : Version W first first
  | next (hw : W L words) (h : Version W first s) (hl : loaded L s = some c)
      (he : Edits L anyAnswer objects c words c') (hi : c'.image L = some b) :
      Version W first (some b)

theorem version_lineage (W : Lib → List CStr → Prop) (first : Option (List Byte)) :
    Lineage W anyAnswer fun _ s => Version W first s :=
  ⟨fun _ _ _ _ _ _ h => h, fun _ _ _ _ _ _ _ _ hw _ h hl he hi => .next hw h hl he hi⟩

theorem searchable_lineage {W : Lib → List CStr → Prop} (hW : ∀ L' words, W L' words → L' = L) :
    Lineage W anyAnswer fun _ s => IsImage L Searchable s where
  keep _ _ _ _ _ _ h := h
  next fs L' words objects s c c' b hw _ h hl he hi := by
    obtain rfl := hW _ _ hw
    obtain ⟨es, hes, hsearch⟩ :=
      h.loaded ⟨⟨List.Pairwise.nil, fun _ he => by cases he⟩, fun _ hs => hs.trim⟩ hl
    obtain ⟨es', hes', hsearch'⟩ := he.searchable hes hsearch
    rw [hes'.image_eq, Option.some.injEq] at hi
    exact ⟨es', hes'.length_lt, hi.symm, hsearch'⟩

theorem Searchable.agree {c : Cache} (hs : Searchable es) (hc : c.Holds es)
    (hlt : c.activeNr < 2 ^ 30) (p : CStr) : ∃ found pos,
      scanCache c.activeNr c.activeCache p.1 = some found ∧
      cacheNamePos c p.1 p.1.length = some pos ∧ (found = true ↔ pos < 0) := by
  obtain ⟨rest, hslots⟩ := hc.slots
  have hnr := hc.nr
  obtain ⟨found, hscan, hfound⟩ := scanCache_named hs.named rest p
  obtain ⟨pos, hpos⟩ := cacheNamePos_total hc (by omega) p.1 p.1.length
  have hspec := cacheNamePos_spec hc (Nat.le_refl _) hpos
  rw [List.take_length] at hspec
  refine ⟨found, pos, ?_, hpos, ?_⟩
  · rw [hslots, hnr]
    exact hscan
  · rw [hfound, hspec.neg_iff hs.ordered]

section Processes
variable {Pid : Type}

/-- No process ever sees, installs or commits anything but a whole version of the index. -/
structure Versioned (E : Pid → Env) (argv : Pid → List CStr) (first : Option (List Byte))
    (c : GitMachine Pid) : Prop where
  index : Version (Told E argv) first (c.shared.read indexPath)
  seen : ∀ i s, (gitBooks E c i).seen = some s → Version (Told E argv) first s
  holder : ∀ i j, (gitBooks E c i).lock ≠ none → (gitBooks E c j).lock ≠ none → i = j
  installs : ∀ i src dst k, c.prog i = .call (.console (.sys (.rename src dst))) k →
    src = lockPath ∧ dst = indexPath ∧ (gitBooks E c i).lock ≠ none ∧
      ∃ b, c.shared.read lockPath = some b ∧ Version (Told E argv) first (some b)
  trees : ∀ i es k, c.prog i = .call (.treeOf es) k →
    ∃ s m, Version (Told E argv) first s ∧ loaded (E i).lib s = some m ∧ es = m.entries ∧
      Linked (E i).lib c.shared es

variable {V : FS → Option (List Byte) → Prop} {E : Pid → Env} {argv : Pid → List CStr}
  {first : Option (List Byte)} {c c' : GitMachine Pid} {i : Pid} {fs : FS}
  {shell : List Byte → FS → FS → Prop}

theorem InConcert.allows (h : InConcert V E argv c) (hp : c.prog i = .call o k) :
    (gitBooks E c i).gitMay (Told E argv) anyAnswer o := by
  have hw := h.each i
  rw [hp, Prog.wp_call] at hw
  exact hw.1

theorem InConcert.library (h : InConcert V E argv c) (i : Pid) :
    (gitBooks E c i).lib = (E i).lib := h.joint.library i

theorem InConcert.versioned
    (h : InConcert (fun _ s => Version (Told E argv) first s ∧ PlainNames s) E argv c) :
    Versioned E argv first c where
  index := h.joint.index.1
  seen i s hs := (h.joint.seen i s hs).1
  holder := h.joint.locked.lone
  installs i src dst k hp := by
    obtain ⟨⟨-, rfl, rfl, hl, s, m, m', hs, hload, hedits, himage⟩, hW, -⟩ := h.allows hp
    rw [h.library] at hload hedits himage hW
    obtain ⟨k, hk⟩ := Option.ne_none_iff_exists'.1 hl
    obtain ⟨hown, hdata⟩ := (h.joint.locked.held i).lock k hk
    refine ⟨rfl, rfl, hl, _, hown.read, ?_⟩
    rw [hdata]
    exact .next (hW trivial) (h.joint.seen i s hs).1 hload hedits himage
  trees i es k hp := by
    obtain ⟨⟨s, m, hs, hload, rfl⟩, hobj⟩ := h.allows hp
    rw [h.library] at hload hobj
    exact ⟨s, m, (h.joint.seen i s hs).1, hload, rfl, fun e he => h.joint.known i _ (hobj e he)⟩

variable [DecidableEq Pid]

theorem InConcert.step (hV : Lineage (Told E argv) anyAnswer V) (hcalm : Calm shell V)
    (h : InConcert V E argv c) (hs : Config.Step (gitAnswered shell) c c') :
    InConcert V E argv c' :=
  Config.Sound.step (fun _ _ _ _ _ hj ha hr => hj.step hV hcalm ha hr) h hs

theorem InConcert.later (hV : Lineage (Told E argv) anyAnswer V) (hcalm : Calm shell V)
    (h : InConcert V E argv c) (hr : Config.Reaches (gitAnswered shell) c c') :
    InConcert V E argv c' :=
  Config.Sound.reaches (fun _ _ _ _ _ hj ha hr => hj.step hV hcalm ha hr) h hr

/-- What a step does to the repository: nothing, or what one live process may do to it. -/
theorem InConcert.step_cases (hcalm : Calm shell V) (h : InConcert V E argv c)
    (hs : Config.Step (gitAnswered shell) c c') :
    c'.shared = c.shared ∧ (∀ i, (gitBooks E c' i).lock ≠ none → gitBooks E c' i = gitBooks E c i) ∨
      ∃ i o k g', c.dead i = false ∧ c.prog i = .call o k ∧
        Move (fun _ _ => True) anyAnswer c.shared (gitBooks E c i) c'.shared g' ∧
        (gitBooks E c i).installed = none ∧
        gitBooks E c' = Function.update (gitBooks E c) i g' := by
  rcases hs.views_cases (gitTerms (Told E argv) anyAnswer) fun i => View.init (E i).lib [] with
    ⟨hsame, hviews⟩ | ⟨i, o, r, k, hd, hp, hr, hviews⟩
  · exact .inl ⟨hsame, fun i _ => congrFun hviews i⟩
  · change GitOp.Acts shell c.shared o r c'.shared at hr
    change gitBooks E c' = Function.update (gitBooks E c) i ((gitBooks E c i).gitNext o r) at hviews
    have ha := h.allows hp
    have hquiet : (gitBooks E c i).gitNext o r = gitBooks E c i → c'.shared = c.shared →
        c'.shared = c.shared ∧
          ∀ i, (gitBooks E c' i).lock ≠ none → gitBooks E c' i = gitBooks E c i := by
      intro hn hfs
      refine ⟨hfs, fun j _ => ?_⟩
      rw [hviews, hn, Function.update_eq_self]
    cases o with
    | console o =>
      cases o with
      | sys o =>
        exact .inr ⟨i, _, k, _, hd, hp, Move.of_step ha.1 trivial onLock_any hr, ha.1.1, hviews⟩
      | popen cmd => exact .inl (hquiet rfl (h.joint.popen hcalm ha hr))
      | _ => exact .inl (hquiet rfl hr)
    | enter handler words =>
      refine .inl ⟨hr, fun j hl => ?_⟩
      have hfree : ((gitBooks E c i).gitNext (.enter handler words) r).lock = none := by
        cases handler <;> rfl
      by_cases hji : j = i
      · subst hji
        rw [hviews, Function.update_self] at hl
        exact absurd hfree hl
      · rw [hviews, Function.update_of_ne hji]
    | _ => exact .inl (hquiet rfl hr)

theorem plain_versions (hwords : PlainWords W) :
    Lineage W anyAnswer fun _ s => Version W first s ∧ PlainNames s :=
  (version_lineage W first).and (plain_lineage hwords)

/-- In every state that any interleaving of operations, failures and deaths leads to. A command that
`show_diff` starts leaves the repository alone if it is one `diff`, as it is for plain names. -/
theorem index_versions (hshell : Harmless shell) (hwords : PlainWords (Told E argv))
    (hg : fs.Good) (hplain : PlainNames (fs.read indexPath))
    (hr : Config.Reaches (gitAnswered shell) (gitRunning E argv fs) c) :
    Versioned E argv (fs.read indexPath) c :=
  (InConcert.reaches (plain_versions hwords) ⟨hshell, fun _ _ => And.right⟩ hg ⟨.first, hplain⟩
    hr).versioned

/-- Whatever processes are at work on one repository, the index is in order at every moment, and in
whatever cache a handler has made of it the two searches agree. -/
theorem shared_index_searchable {L : Lib} (hshell : Harmless shell)
    (hwords : PlainWords (Told E argv)) (hL : ∀ i, (E i).lib = L) (hg : fs.Good)
    (hplain : PlainNames (fs.read indexPath)) (h0 : IsImage L Searchable (fs.read indexPath))
    (hr : Config.Reaches (gitAnswered shell) (gitRunning E argv fs) c) :
    IsImage L Searchable (c.shared.read indexPath) ∧
    ∀ i s m, (gitBooks E c i).seen = some s → loaded L s = some m → m.activeNr < 2 ^ 30 →
      ∀ p : CStr, ∃ found pos, scanCache m.activeNr m.activeCache p.1 = some found ∧
        cacheNamePos m p.1 p.1.length = some pos ∧ (found = true ↔ pos < 0) := by
  have hV : Lineage (Told E argv) anyAnswer fun _ s => IsImage L Searchable s := by
    refine searchable_lineage ?_
    rintro L' words ⟨i, argv', rfl, -⟩
    exact hL i
  have h := InConcert.reaches (hV.and (plain_lineage hwords)) ⟨hshell, fun _ _ => And.right⟩ hg
    ⟨h0, hplain⟩ hr
  refine ⟨h.joint.index.1, fun i s m hs hm hlt p => ?_⟩
  obtain ⟨es, hes, hsearch⟩ := (h.joint.seen i s hs).1.loaded
    ⟨⟨List.Pairwise.nil, fun _ he => by cases he⟩, fun _ hs => hs.trim⟩ hm
  exact hsearch.agree hes hlt p

/-- What a process can do while the lock file is there and not its own. -/
theorem Move.blocked {cond : FS → View → Prop} {ok : (o : Op) → o.Res → Prop} {fs fs' : FS}
    {g g' : View} (hm : Move cond ok fs g fs' g') (hg : fs.Good) (hh : Held fs g)
    (hl : g.lock = none) (hd : fs.dir lockPath = some k) :
    fs'.dir lockPath = some k ∧ fs'.data k = fs.data k ∧ SameIndex fs fs' ∧ g'.lock = none := by
  have hdata : fs'.data k = fs.data k := by
    refine hm.keeps_file (hg _ _ hd) (hl ▸ Option.some_ne_none k).symm fun p ho => ?_
    obtain ⟨hown, hp, -⟩ := hh.object k p ho
    exact hp ((hown lockPath).1 hd).symm
  have hindex : SameIndex fs fs' := by
    rcases hm.index hg hh with ⟨hsame, -⟩ | hin
    · exact hsame
    · exact absurd hl hin.held
  refine ⟨?_, hdata, hindex, ?_⟩
  · cases hm with
    | locked hc hl' hs hfree => exact FS.create_dir_ne hfree hd
    | made ho hp hfree => exact FS.create_dir_ne hfree hd
    | installed hl' => exact absurd hl hl'
    | released hl' => exact absurd hl hl'
    | _ => exact hd
  · cases hm with
    | locked hc hl' hs hfree =>
      rw [hfree] at hd
      cases hd
    | installed hl' => rfl
    | released hl' => rfl
    | _ => exact hl

/-- The lock file is there, and no process that has it can do anything more. -/
structure Stale (E : Pid → Env) (c : GitMachine Pid) (k : Nat) : Prop where
  lock : c.shared.dir lockPath = some k
  idle : ∀ i, (gitBooks E c i).lock ≠ none → c.Idle i

theorem Stale.step (hcalm : Calm shell V) (h : InConcert V E argv c) (hstale : Stale E c k)
    (hs : Config.Step (gitAnswered shell) c c') : Stale E c' k ∧
      c'.shared.data k = c.shared.data k ∧
      c'.shared.read indexPath = c.shared.read indexPath := by
  rcases h.step_cases hcalm hs with ⟨hsame, hbooks⟩ | ⟨i, o, p, g', hd, hp, hm, -, hbooks⟩
  · rw [hsame]
    refine ⟨⟨hsame ▸ hstale.lock, fun i hl => hs.idle (hstale.idle i ?_)⟩, rfl, rfl⟩
    rwa [← hbooks i hl]
  · have hfree : (gitBooks E c i).lock = none := by
      by_contra hl
      rcases hstale.idle i hl with hdead | hend
      · rw [hdead] at hd
        cases hd
      · exact hend _ _ hp
    obtain ⟨hlock, hdata, hindex, hnone⟩ :=
      hm.blocked h.joint.locked.good (h.joint.locked.held i) hfree hstale.lock
    refine ⟨⟨hlock, fun j hl => hs.idle (hstale.idle j ?_)⟩, hdata, hindex.read⟩
    rw [hbooks] at hl
    by_cases hji : j = i
    · subst hji
      rw [Function.update_self] at hl
      exact absurd hnone hl
    · rwa [Function.update_of_ne hji] at hl

/-- A lock file that nobody will take away is there for good, and the index with it: whatever the
processes do, neither of the two changes any more. -/
theorem stale_lock_blocks (hshell : Harmless shell) (hwords : PlainWords (Told E argv))
    (hg : fs.Good) (hplain : PlainNames (fs.read indexPath))
    (hr : Config.Reaches (gitAnswered shell) (gitRunning E argv fs) c)
    (hl : c.shared.dir lockPath = some k)
    (hidle : ∀ i, (gitBooks E c i).lock ≠ none → c.Idle i)
    (hlater : Config.Reaches (gitAnswered shell) c c') :
    c'.shared.dir lockPath = some k ∧ c'.shared.data k = c.shared.data k ∧
      c'.shared.read indexPath = c.shared.read indexPath := by
  have hV : Lineage (Told E argv) anyAnswer fun _ s => PlainNames s := plain_lineage hwords
  have hcalm : Calm shell fun _ s => PlainNames s := ⟨hshell, fun _ _ => id⟩
  have hstart := InConcert.reaches hV hcalm hg hplain hr
  suffices hall : Stale E c' k ∧ c'.shared.data k = c.shared.data k ∧
      c'.shared.read indexPath = c.shared.read indexPath from ⟨hall.1.lock, hall.2⟩
  induction hlater with
  | refl => exact ⟨⟨hl, hidle⟩, rfl, rfl⟩
  | tail hbefore hs ih =>
    obtain ⟨hstale, hdata, hread⟩ := ih
    obtain ⟨hstale', hdata', hread'⟩ := hstale.step hcalm (hstart.later hV hcalm hbefore) hs
    exact ⟨hstale', hdata'.trans hdata, hread'.trans hread⟩

end Processes

def storedEnv : Env where
  lib := storedLib
  posix := false
  surroundings := someone

/-- A shell that does anything at all for a command that is not one `diff`. -/
def freeShell (cmd : List Byte) (fs fs' : FS) : Prop :=
  ∀ path, SingleCommand path → cmd = diffCommand path → fs' = fs

theorem freeShell_harmless : Harmless freeShell := fun path _ _ hs h => h path hs rfl

theorem plainWords_told (h : ∀ i, ∀ call ∈ gitCalls (E i).posix (argv i),
    call.1 = .updateCache → ∀ p ∈ call.2.drop 1, p.1 ≠ [] → p.1.length ≤ 989 ∧ PlainName p.1) :
    PlainWords (Told E argv) := by
  rintro L words ⟨i, argv', -, hcall, rfl⟩ p hp hv
  have hne : p.1 ≠ [] := by
    intro hnil
    rw [verifyPath, hnil] at hv
    cases hv
  obtain ⟨hlen, hplain⟩ := h i _ hcall rfl p hp hne
  exact hplain.single hne hlen

/-- Two processes in one repository: one adds the file `a`, the other commits. -/
def addAndCommit (second : Bool) : List CStr :=
  if second then [cstr "git", cstr "--commit"] else [cstr "git", cstr "-a", cstr "a"]

theorem addAndCommit_plain : PlainWords (Told (fun _ => storedEnv) addAndCommit) :=
  plainWords_told (by decide +kernel)

/-- The first adds its file and the second has not begun. -/
theorem index_versions_two : ∃ c : GitMachine Bool,
    Config.Reaches (gitAnswered freeShell) (gitRunning (fun _ => storedEnv) addAndCommit FS.empty)
      c ∧ (c.shared.read indexPath).isSome = true ∧
    Versioned (fun _ => storedEnv) addAndCommit none c := by
  obtain ⟨c, hc, hi⟩ : ∃ c, Config.drive gitTurn (GitOp.serve [(str "a", str "x")])
      (List.replicate 15 false) (gitRunning (fun _ => storedEnv) addAndCommit FS.empty) =
        some c ∧ (c.shared.read indexPath).isSome = true := by
    rw [← Option.map_eq_some_iff]
    decide +kernel
  have hr : Config.Reaches (gitAnswered freeShell) _ c :=
    Config.drive_reaches (fun _ _ _ _ h => .of_step (fun _ _ _ _ _ => rfl) h) (fun _ => rfl) hc
  exact ⟨c, hr, hi, index_versions freeShell_harmless addAndCommit_plain FS.empty_good
    plainNames_none hr⟩

/-- The same two processes, when the second has mapped the index. -/
theorem shared_index_searchable_two : ∃ c : GitMachine Bool,
    Config.Reaches (gitAnswered freeShell) (gitRunning (fun _ => storedEnv) addAndCommit FS.empty)
      c ∧ ((gitBooks (fun _ => storedEnv) c true).seen.bind id).isSome = true ∧
    ∀ s m, (gitBooks (fun _ => storedEnv) c true).seen = some s → loaded storedLib s = some m →
      m.activeNr < 2 ^ 30 → ∀ p : CStr, ∃ found pos,
        scanCache m.activeNr m.activeCache p.1 = some found ∧
          cacheNamePos m p.1 p.1.length = some pos ∧ (found = true ↔ pos < 0) := by
  obtain ⟨c, hc, hi⟩ : ∃ c, Config.drive gitTurn (GitOp.serve [(str "a", str "x")])
      (List.replicate 15 false ++ List.replicate 6 true)
      (gitRunning (fun _ => storedEnv) addAndCommit FS.empty) = some c ∧
      ((gitBooks (fun _ => storedEnv) c true).seen.bind id).isSome = true := by
    rw [← Option.map_eq_some_iff]
    decide +kernel
  have hr : Config.Reaches (gitAnswered freeShell) _ c :=
    Config.drive_reaches (fun _ _ _ _ h => .of_step (fun _ _ _ _ _ => rfl) h) (fun _ => rfl) hc
  exact ⟨c, hr, hi, (shared_index_searchable freeShell_harmless addAndCommit_plain (fun _ => rfl)
    FS.empty_good plainNames_none trivial hr).2 true⟩

/-- With a lock file left behind by an earlier process, an add comes to its end without effect. -/
theorem stale_lock_blocks_add : ∃ c : GitMachine Unit,
    Config.Reaches (gitAnswered freeShell) (gitRunning (fun _ => storedEnv)
      (fun _ => addAndCommit false) (FS.empty.create lockPath)) c ∧
    (c.past ()).length = 5 ∧ c.shared.dir lockPath = some 0 ∧ c.shared.data 0 = [] ∧
      c.shared.read indexPath = none := by
  obtain ⟨c, hc, hn⟩ : ∃ c, Config.drive gitTurn (GitOp.serve [(str "a", str "x")])
      (List.replicate 5 ()) (gitRunning (fun _ => storedEnv) (fun _ => addAndCommit false)
        (FS.empty.create lockPath)) = some c ∧ (c.past ()).length = 5 := by
    rw [← Option.map_eq_some_iff]
    decide +kernel
  have hr : Config.Reaches (gitAnswered freeShell) _ c :=
    Config.drive_reaches (fun _ _ _ _ h => .of_step (fun _ _ _ _ _ => rfl) h) (fun _ => rfl) hc
  exact ⟨c, hr, hn, stale_lock_blocks freeShell_harmless (plainWords_told (by decide +kernel))
    (FS.empty_good.create lockPath) plainNames_none .refl
    (FS.create_dir FS.empty lockPath lockPath) (fun _ hl => absurd rfl hl) hr⟩

end SelfGit
