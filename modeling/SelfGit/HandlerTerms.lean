import SelfGit.GitTerms

namespace SelfGit
open Foundation
set_option autoImplicit true

def View.Closed (g : View) : Prop := g.lock = none ∧ g.object = none

/-- A handler leaves no object unwritten, and if it returns no lock either. -/
def AtRest : Except Stop α → View → Prop
  | .ok _, g => g.Closed
  | .error _, g => g.object = none

/-- The books of a handler that has installed nothing and holds no lock. -/
structure View.Calm (L : Lib) (g : View) : Prop where
  lib : g.lib = L
  installed : g.installed = none
  lock : g.lock = none
  object : g.object = none

theorem View.init_calm (L : Lib) (ws : List CStr) : (View.init L ws).Calm L :=
  ⟨rfl, rfl, rfl, rfl⟩

theorem View.Calm.closed (h : View.Calm L g) : g.Closed := ⟨h.lock, h.object⟩

theorem View.Calm.more (h : View.Calm L g) (objects : List Path) : (g.more objects).Calm L :=
  ⟨h.lib, h.installed, h.lock, h.object⟩

theorem Cache.Shape.null_or (h : Cache.Shape c) : c = Cache.null ∨ c.activeCache ≠ [] := by
  by_cases hc : c.activeCache = []
  · refine .inl ?_
    obtain ⟨slots, nr, alloc⟩ := c
    obtain ⟨hnr, hlen, -⟩ := h
    simp only at hc hnr hlen
    subst hc
    obtain rfl : alloc = 0 := hlen.symm
    obtain rfl : nr = 0 := Nat.le_zero.1 hnr
    rfl
  · exact .inr hc

theorem readCache_loaded (L : Lib) (h : c.activeCache ≠ []) :
    readCache L c = pure (-1, c) := by
  rw [readCache, if_pos h]

theorem updateCache_loaded (L : Lib) (argv : List CStr) (h : c.activeCache ≠ []) :
    Console.updateCache L argv c = pure (some (-1), c) := by
  rw [Console.updateCache, readCache_loaded L h]
  rfl

section Rules
variable {W : Lib → List CStr → Prop} {ok : (o : Op) → o.Res → Prop} {g : View} {L : Lib}
  {E : Env} {c : Cache}

/-- With a count, `read_cache` has seen the index and made the cache of it. -/
structure Loaded (L : Lib) (n : Int) (c : Cache) (g : View) : Prop where
  calm : g.Calm L
  index : 0 ≤ n → ∃ s, g.seen = some s ∧ loaded L s = some c ∧ n = toInt c.activeNr

theorem wp_load {Q : Except Stop (Int × Cache) → View → Prop} (hg : g.Calm L)
    (hh : g.handle = none) (hs : g.seen = none) (hc : c.Shape)
    (hQ : ∀ n c' g', Loaded L n c' g' → Q (.ok (n, c')) g')
    (he : ∀ e g', g'.object = none → Q (.error e) g') :
    (Console.sys (readCache L c)).wp (gitTerms W ok) Q g := by
  rcases hc.null_or with rfl | hload
  · refine wp_sys_readCache hh ((readCache_yields L).wp ?_)
    refine wp_readCache hg.installed hg.object hs (fun n c' h z s hin => ?_) fun e g' _ ho _ => he e g' ho
    intro hyield
    refine hQ n c' _ ⟨⟨hg.lib, hg.installed, hg.lock, hg.object⟩, fun hn => ?_⟩
    obtain ⟨s', rfl, hl⟩ := hin hn
    exact ⟨s', rfl, hl, (hyield _ rfl).2 hn⟩
  · rw [readCache_loaded L hload]
    exact Prog.wp_pure.2 (hQ _ _ _ ⟨hg, fun hn => absurd hn (by decide)⟩)

theorem wp_readSha1File {Q : Except Stop (Option (List Byte × Nat × List Byte)) → View → Prop}
    (hi : g.installed = none) (hs : g.handle = none ∨ g.seen ≠ none) (hQ : ∀ x, Q x g) :
    (Console.sys (readSha1File L s)).wp (gitTerms W ok) Q g := by
  have hopened : ∀ r, g.opened (sha1FileName L s) r = g := by
    intro r
    rw [View.opened.eq_def]
    split
    · exact if_neg fun h => sha1FileName_ne_index L s h.1
    · exact if_neg fun h => sha1FileName_ne_index L s h.1
    · rfl
  have hseen : ∀ i, g.handle = some i → g.seen = none → False := by
    intro i hh hn
    rcases hs with hnone | hsome
    · rw [hh] at hnone
      cases hnone
    · exact hsome hn
  have hstatted : ∀ fd r, g.statted fd r = g := by
    intro fd r
    rw [View.statted.eq_def]
    split
    · exact if_neg fun h => hseen _ h.1 h.2
    · rfl
  have hmapped : ∀ fd r, g.mapped fd r = g := by
    intro fd r
    rw [View.mapped.eq_def]
    split
    · exact if_neg fun h => hseen _ h.1 h.2
    · rfl
  refine wp_sys_looks (readSha1File_looks _ _) ?_
  rw [readSha1File, Prog.wp_bind]
  refine wp_openRead hi fun r _ _ => ?_
  rw [hopened]
  cases r with
  | error e => exact Prog.wp_pure.2 (hQ _)
  | ok fd =>
    rw [Prog.andThen_ok, Prog.wp_bind]
    refine wp_fstat hi fun r _ => ?_
    rw [hstatted]
    cases r with
    | none => exact Prog.wp_pure.2 (hQ _)
    | some st =>
      rw [Prog.andThen_ok, Prog.wp_bind]
      refine wp_mmap hi (fun i _ hh hn => (hseen i hh hn).elim) fun r _ => ?_
      rw [hmapped]
      cases r with
      | none => exact Prog.wp_pure.2 (hQ _)
      | some map =>
        rw [Prog.andThen_ok, Prog.wp_bind]
        refine wp_memory hi fun stack => ?_
        rw [Prog.andThen_ok, Prog.wp_bind, wp_defined]
        refine ⟨fun n _ => ?_, fun _ => hQ _⟩
        rw [Prog.andThen_ok]
        split
        · exact Prog.wp_pure.2 (hQ _)
        · rw [Prog.wp_bind]
          refine wp_malloc hi fun r => ?_
          rw [Prog.andThen_ok]
          split
          · rw [Prog.wp_bind]
            refine wp_memory hi fun heap => ?_
            rw [Prog.andThen_ok, Prog.wp_bind, wp_defined]
            exact ⟨fun buf _ => Prog.wp_pure.2 (hQ _), fun _ => hQ _⟩
          · exact Prog.wp_pure.2 (hQ _)

theorem wp_storeObject {Q : Except Stop (Int × Sha1) → View → Prop} (hg : g.Calm L)
    (hQ : ∀ r g', g'.Calm L → Q (.ok r) g') :
    (Console.writeSha1File L buf len).wp (gitTerms W ok) Q g := by
  rw [Console.writeSha1File, Prog.wp_bind]
  refine wp_sys_stores (writeSha1File_stores _ _ _) ?_
  refine wp_writeSha1File hg.lib hg.installed hg.object fun r objects => ?_
  obtain ⟨n, s⟩ := r
  rw [Prog.andThen_ok]
  dsimp only
  split
  · exact Prog.wp_pure.2 (hQ _ _ (hg.more objects))
  · rw [Prog.wp_bind]
    exact wp_say (Prog.wp_pure.2 (hQ _ _ (hg.more objects)))

theorem activeNr_of_count (hc : c.Shape) (h : n = toInt c.activeNr) : c.activeNr = n.toNat := by
  have hlt : c.activeNr < 2 ^ 31 := Nat.lt_of_le_of_lt hc.nr hc.alloc
  rw [h, toInt_of_lt hlt, Int.toNat_natCast]

theorem wp_storeCommit {Q : Except Stop Int → View → Prop} (hg : g.Calm L)
    (hQ : ∀ x g', g'.Calm L → Q x g') :
    (Console.commitTree L argv w tree).wp (gitTerms W ok) Q g := by
  rw [Console.commitTree.eq_def]
  split
  · exact Prog.wp_halt.2 (hQ _ _ hg)
  · split
    · exact Prog.wp_halt.2 (hQ _ _ hg)
    · rw [Prog.wp_bind]
      refine wp_ofOption (fun _ _ => ?_) (hQ _ _ hg)
      rw [Prog.andThen_ok, Prog.wp_bind]
      refine wp_ofOption (fun r _ => ?_) (hQ _ _ hg)
      obtain ⟨⟨buffer, size⟩, inside⟩ := r
      cases inside with
      | false => exact Prog.wp_halt.2 (hQ _ _ hg)
      | true =>
        rw [Prog.andThen_ok]
        simp only [↓reduceIte, Prog.wp_bind]
        refine wp_storeObject hg fun r g' hg' => ?_
        exact Prog.wp_pure.2 (hQ _ _ hg')

theorem Handler.wp_commit (hc : c.Shape) (argv : List CStr) (w : Surroundings) :
    (Console.commit L argv w c).wp (gitTerms W ok) AtRest (View.init L []) := by
  rw [Console.commit, Prog.wp_bind]
  refine wp_sys_looks (Prog.avoids_ask (by simp [Unsettling, Changing]))
    (wp_memory rfl fun sha1 => ?_)
  rw [Prog.andThen_ok, Prog.wp_bind, Console.writeTree, Prog.wp_bind]
  refine wp_load (View.init_calm L []) rfl rfl hc (fun n c' g' hl => ?_) fun _ _ ho => ho
  simp only [Prog.andThen_ok]
  split
  · exact Prog.wp_halt.2 hl.calm.object
  · rename_i hpos
    obtain ⟨s, hseen, hload, hn⟩ := hl.index (by omega)
    rw [Prog.wp_bind]
    refine wp_sys_looks (buildTree_looks _ _ _) ?_
    refine wp_buildTree hl.calm.lib hl.calm.installed hl.calm.object (fun r objects _ hall => ?_)
      fun _ _ _ ho => ho
    rw [Prog.andThen_ok, Prog.wp_bind]
    have hlib : (g'.more objects).lib = L := hl.calm.lib
    refine wp_tree ⟨⟨s, c', hseen, by rw [hlib, hload], ?_⟩, ?_⟩ ?_
    · rw [Cache.entries, activeNr_of_count (loaded_shape hload) hn]
    · intro e he
      rw [hlib]
      exact hall e he
    · rw [Prog.andThen_ok, Prog.wp_bind]
      refine wp_storeObject (hl.calm.more objects) fun r g'' hg'' => ?_
      refine Prog.wp_pure.2 ?_
      rw [Prog.andThen_ok, Prog.wp_bind]
      refine wp_storeCommit hg'' fun x g₃ hg₃ => ?_
      cases x with
      | error e => exact hg₃.object
      | ok n => exact Prog.wp_pure.2 hg₃.closed

theorem wp_updateCache_kept (L : Lib) (argv : List CStr) :
    (updateCache L argv).wp (terms ok) AtRest (View.init L (argv.drop 1)) := by
  refine Prog.wp_mono (Prog.wp_keeping (I := fun g => g.installed ≠ none → g.lock = none) ?_
    (wp_updateCache_closed L argv) fun h => absurd rfl h) ?_
  · intro g o r _ ha _ hi
    rcases (g.next_same o r).installed with hsame | ⟨-, hlock⟩
    · exact absurd (hsame.trans ha.1) hi
    · exact hlock
  · rintro x g ⟨⟨hend, hobject⟩, hlock⟩
    cases x with
    | error e => exact hobject
    | ok a =>
      obtain ⟨r, c⟩ := a
      by_cases hr : r = some 0
      · obtain ⟨es, -, hi⟩ := hend.1 hr
        exact ⟨hlock (hi ▸ Option.some_ne_none _), hobject⟩
      · exact ⟨(hend.2 hr).2, hobject⟩

theorem Handler.wp_updateCache (hW : W L (argv.drop 1)) (hc : c.Shape) :
    (Console.sys (Console.updateCache L argv c)).wp (gitTerms W ok) AtRest
      (View.init L (argv.drop 1)) := by
  rcases hc.null_or with rfl | hload
  · have hkept : (SelfGit.updateCache L argv).wp (terms ok) AtRest
        (View.init L (argv.drop 1)) := wp_updateCache_kept L argv
    have hread : (readCache L Cache.null).wp (terms ok)
        (fun x g => ∀ n c, x = .ok (n, c) → g.lib = L ∧ g.words = argv.drop 1 ∧
          (0 ≤ n → g.seen ≠ none)) (View.init L (argv.drop 1)) := by
      refine wp_readCache rfl rfl rfl (fun n c h z s hs => ?_) fun e g' _ _ n c he => ?_
      · rintro n' c' ⟨⟩
        refine ⟨rfl, rfl, fun hn => ?_⟩
        obtain ⟨s', rfl, -⟩ := hs hn
        exact Option.some_ne_none s'
      · cases he
    rw [SelfGit.updateCache, Prog.wp_bind] at hkept
    rw [Console.updateCache_null, SelfGit.updateCache, Console.sys_bind, Prog.wp_bind]
    refine Prog.wp_mono (wp_sys_readCache rfl (Prog.wp_and hkept hread)) ?_
    rintro x g ⟨hrest, hseen⟩
    cases x with
    | error e => exact hrest
    | ok a =>
      obtain ⟨n, c⟩ := a
      obtain ⟨hlib, hwords, hn⟩ := hseen n c rfl
      rw [Prog.andThen_ok] at hrest ⊢
      by_cases hneg : n < 0
      · simp only [hneg, ↓reduceIte] at hrest ⊢
        exact wp_sys_stores (Prog.avoids_pure _) hrest
      · exact wp_sys (hlib.symm ▸ hwords.symm ▸ hW) (hn (by omega)) hrest
  · rw [updateCache_loaded L argv hload]
    exact Prog.wp_pure.2 ⟨rfl, rfl⟩

theorem wp_statusLoop {Q : Except Stop Unit → View → Prop} (n : Nat) (c : Cache)
    (words : List CStr) (hQ : ∀ x, Q x g) :
    (Console.statusLoop n c words).wp (gitTerms W ok) Q g := by
  induction words with
  | nil => exact Prog.wp_pure.2 (hQ _)
  | cons p words ih =>
    rw [Console.statusLoop]
    split
    · rw [Prog.wp_bind]
      refine wp_ofOption (fun found _ => ?_) (hQ _)
      rw [Prog.andThen_ok, Prog.wp_bind]
      exact wp_say ih
    · exact ih

theorem Handler.wp_status (hc : c.Shape) (argv : List CStr) :
    (Console.status L argv c).wp (gitTerms W ok) AtRest (View.init L []) := by
  rw [Console.status, Prog.wp_bind]
  refine wp_say ?_
  rw [Prog.andThen_ok, Prog.wp_bind]
  refine wp_say ?_
  rw [Prog.andThen_ok, Prog.wp_bind]
  refine wp_load (View.init_calm L []) rfl rfl hc (fun n c' g' hl => ?_) fun _ _ ho => ho
  simp only [Prog.andThen_ok]
  split
  · exact Prog.wp_pure.2 hl.calm.closed
  · rw [Prog.wp_bind]
    refine wp_statusLoop _ _ _ fun x => ?_
    cases x with
    | error e => exact hl.calm.object
    | ok u => exact Prog.wp_pure.2 hl.calm.closed

theorem wp_sayNames {Q : Except Stop Unit → View → Prop} (n : Nat)
    (slots : List (Option CacheEntry)) (hQ : ∀ x, Q x g) :
    (Console.sayNames n slots).wp (gitTerms W ok) Q g := by
  induction n generalizing slots with
  | zero => exact Prog.wp_pure.2 (hQ _)
  | succ n ih =>
    cases slots with
    | nil => exact Prog.wp_halt.2 (hQ _)
    | cons slot slots =>
      cases slot with
      | none => exact Prog.wp_halt.2 (hQ _)
      | some ce =>
        rw [Console.sayNames, Prog.wp_bind]
        refine wp_ofOption (fun k _ => ?_) (hQ _)
        rw [Prog.andThen_ok, Prog.wp_bind]
        exact wp_say (ih slots)

theorem wp_cacheNamePos {Q : Except Stop (Int × Cache) → View → Prop} (hg : g.Calm L)
    (hh : g.handle = none) (hs : g.seen = none) (hc : c.Shape)
    (hQ : ∀ r g', g'.Calm L → Q (.ok r) g')
    (he : ∀ e g', g'.object = none → Q (.error e) g') :
    (Console.sys (Remove.cacheNamePos L c name namelen)).wp (gitTerms W ok) Q g := by
  rw [Remove.cacheNamePos, Console.sys_bind, Prog.wp_bind]
  refine wp_load hg hh hs hc (fun n c' g' hl => ?_) he
  rw [Prog.andThen_ok]
  dsimp only
  split
  · exact Prog.wp_pure.2 (hQ _ _ hl.calm)
  · rw [Console.sys_bind, Console.sys_defined, Prog.wp_bind]
    exact wp_ofOption (fun pos _ => Prog.wp_pure.2 (hQ _ _ hl.calm)) (he _ _ hl.calm.object)

theorem Handler.wp_removeFunction (hc : c.Shape) (argv : List CStr) :
    (Console.removeFunction L argv c).wp (gitTerms W ok) AtRest (View.init L []) := by
  rw [Console.removeFunction]
  split
  · exact Prog.wp_halt.2 rfl
  · rw [Prog.wp_bind, Console.removeFileFromCache, Prog.wp_bind]
    refine wp_cacheNamePos (View.init_calm L []) rfl rfl hc (fun r g' hg => ?_) fun _ _ ho => ho
    have hrest : ∀ c' : Cache, (do
        Console.sayNames c'.activeNr c'.activeCache
        return c').wp (gitTerms W ok) AtRest g' := by
      intro c'
      rw [Prog.wp_bind]
      refine wp_sayNames _ _ fun x => ?_
      cases x with
      | error e => exact hg.object
      | ok u => exact Prog.wp_pure.2 hg.closed
    obtain ⟨pos, c'⟩ := r
    rw [Prog.andThen_ok, Prog.wp_bind]
    refine wp_say ?_
    rw [Prog.andThen_ok]
    split
    · rw [Prog.wp_bind]
      refine wp_ofOption (fun slots _ => ?_) hg.object
      rw [Prog.andThen_ok, Prog.wp_pure, Prog.andThen_ok]
      exact hrest _
    · rw [Prog.wp_pure, Prog.andThen_ok]
      exact hrest c'

theorem Handler.wp_catFile (argv : List CStr) :
    (Console.catFile L argv).wp (gitTerms W ok) AtRest (View.init L []) := by
  have hstop : ∀ e : Stop, (Prog.halt e : GitProc Unit).wp (gitTerms W ok) AtRest
    (View.init L []) := fun e => Prog.wp_halt.2 rfl
  rw [Console.catFile.eq_def]
  split
  · split
    · exact hstop _
    · rw [Prog.wp_bind]
      refine wp_readSha1File rfl (.inl rfl) fun x => ?_
      cases x with
      | error e => rfl
      | ok r =>
        cases r with
        | none => exact hstop _
        | some r =>
          rw [Prog.andThen_ok, Prog.wp_bind]
          refine wp_mkstemp fun r => ?_
          rw [Prog.andThen_ok]
          cases r with
          | error e => exact hstop _
          | ok name =>
            rw [Prog.wp_bind]
            refine wp_fill fun n => ?_
            exact wp_say ⟨rfl, rfl⟩
  · exact hstop _

theorem Handler.wp_readTree (argv : List CStr) :
    (Console.readTree L argv).wp (gitTerms W ok) AtRest (View.init L []) := by
  have hstop : ∀ e : Stop, (Prog.halt e : GitProc Unit).wp (gitTerms W ok) AtRest
    (View.init L []) := fun e => Prog.wp_halt.2 rfl
  rw [Console.readTree.eq_def]
  split
  · split
    · exact hstop _
    · rw [Console.unpack, Prog.wp_bind]
      refine wp_readSha1File rfl (.inl rfl) fun x => ?_
      cases x with
      | error e => rfl
      | ok r =>
        cases r with
        | none => exact hstop _
        | some r =>
          rw [Prog.andThen_ok]
          dsimp only
          split
          · rw [Prog.wp_bind]
            refine wp_sayAll _ ?_
            rw [Prog.andThen_ok]
            split
            · exact Prog.wp_pure.2 ⟨rfl, rfl⟩
            · exact hstop _
            · exact hstop _
          · exact hstop _
  · exact hstop _

theorem wp_statFile {Q : Except Stop (Except Errno Stat) → View → Prop}
    (h : ∀ r : Except Errno Stat, Q (.ok r) g) :
    (Console.onConsole (statFile p)).wp (gitTerms W ok) Q g :=
  wp_quiet (o := .console (.stat p)) (fun _ => trivial) (fun _ _ => rfl) h

theorem wp_popen {Q : Except Stop Bool → View → Prop} (hm : g.mayDiff cmd)
    (h : ∀ r : Bool, Q (.ok r) g) :
    (Console.onConsole (popen cmd)).wp (gitTerms W ok) Q g :=
  Prog.wp_ask (o := GitOp.console (.popen cmd)) |>.2 ⟨hm, fun r _ => h r⟩

theorem wp_showDifferences {Q : Except Stop Unit → View → Prop} {name : List Byte}
    (old : Option (List Byte × Nat × List Byte)) (hm : g.mayDiff (diffCommand name))
    (hQ : ∀ x, Q x g) : (Console.onConsole (showDifferences name old)).wp (gitTerms W ok) Q g := by
  rw [showDifferences.eq_def, Console.onConsole_bind, Prog.wp_bind]
  refine wp_popen hm fun r => ?_
  rw [Prog.andThen_ok]
  split
  · split
    · exact wp_quiet (o := .console (.fwrite _)) (fun _ => trivial) (fun _ _ => rfl) fun _ => hQ _
    · exact Prog.wp_halt.2 (hQ _)
  · exact Prog.wp_halt.2 (hQ _)

theorem wp_showEntries {Q : Except Stop Unit → View → Prop} (hi : g.installed = none)
    (hs : g.seen = some s) (hl : loaded g.lib s = some c) (n : Nat)
    (slots : List (Option CacheEntry)) (hmem : ∀ e, some e ∈ slots → e ∈ c.entries)
    (hQ : ∀ x, Q x g) : (Console.onConsole (showEntries L n slots)).wp (gitTerms W ok) Q g := by
  induction n generalizing slots with
  | zero => exact Prog.wp_pure.2 (hQ _)
  | succ n ih =>
    cases slots with
    | nil => exact Prog.wp_halt.2 (hQ _)
    | cons slot slots =>
      cases slot with
      | none => exact Prog.wp_halt.2 (hQ _)
      | some ce =>
        have hrest : ∀ e, some e ∈ slots → e ∈ c.entries := fun e he =>
          hmem e (List.mem_cons_of_mem _ he)
        have hnext : ∀ x : Except Stop Unit, Prog.andThen Q (fun _ =>
            (Console.onConsole (showEntries L n slots)).wp (gitTerms W ok) Q) x g := by
          intro x
          cases x with
          | error e => exact hQ _
          | ok u => exact ih slots hrest
        rw [showEntries, Console.onConsole_bind, Prog.wp_bind, showEntry, Console.onConsole_bind,
          Prog.wp_bind]
        rw [Console.onConsole_ofOption]
        refine wp_ofOption (fun k hk => ?_) (hQ _)
        rw [Prog.andThen_ok, Console.onConsole_bind, Prog.wp_bind]
        refine wp_statFile fun r => ?_
        rw [Prog.andThen_ok]
        cases r with
        | error e => exact Prog.wp_halt.2 (hQ _)
        | ok st =>
          dsimp only
          split
          · exact wp_say (hnext _)
          · rw [Console.onConsole_bind, Prog.wp_bind]
            refine wp_say ?_
            rw [Prog.andThen_ok, Console.onConsole_bind, Console.onConsole_onRepo, Prog.wp_bind]
            refine wp_readSha1File hi (.inr (hs ▸ Option.some_ne_none s)) fun x => ?_
            cases x with
            | error e => exact hQ _
            | ok old =>
              rw [Prog.andThen_ok]
              exact wp_showDifferences _
                ⟨s, c, ce, k, hs, hl, hmem ce List.mem_cons_self, hk, rfl⟩ hnext

theorem Handler.wp_showDiff (hc : c.Shape) :
    (Console.onConsole (Console.showDiff E c)).wp (gitTerms W ok) AtRest
      (View.init E.lib []) := by
  rw [Console.showDiff, Console.onConsole_bind, Console.onConsole_onRepo, Prog.wp_bind]
  refine wp_load (View.init_calm _ []) rfl rfl hc (fun n c' g' hl => ?_) fun _ _ ho => ho
  rw [Prog.andThen_ok]
  dsimp only
  split
  · exact Prog.wp_halt.2 hl.calm.object
  · rename_i hn
    obtain ⟨s, hseen, hload, -⟩ := hl.index (by omega)
    rw [Console.onConsole_bind, Prog.wp_bind]
    refine wp_showEntries hl.calm.installed hseen (hl.calm.lib.symm ▸ hload) _ _
      (fun e he => loaded_mem hload he) fun x => ?_
    cases x with
    | error e => exact hl.calm.object
    | ok u => exact Prog.wp_pure.2 hl.calm.closed

end Rules

section Shapes

theorem readCache_shape (L : Lib) (hc : Cache.Shape c) :
    (readCache L c).Yields fun r => r.2.Shape := by
  rcases hc.null_or with rfl | hload
  · refine (readCache_yields L).mono fun r hr => hr.1
  · rw [readCache_loaded L hload]
    exact Prog.yields_pure hc

theorem shiftDown_length (h : Remove.shiftDown rounds slots i nr = some slots') :
    slots'.length = slots.length := by
  induction rounds generalizing slots i with
  | zero =>
    cases h
    rfl
  | succ rounds ih =>
    rw [Remove.shiftDown] at h
    split at h
    · simp only [Option.bind_eq_bind, Option.bind_eq_some_iff] at h
      obtain ⟨ce, -, slots₁, hstore, h⟩ := h
      exact (ih h).trans (store_length hstore)
    · cases h
      rfl

theorem sayNames_yields (n : Nat) (slots : List (Option CacheEntry)) :
    (Console.sayNames n slots).Yields fun _ => n ≤ slots.length := by
  induction n generalizing slots with
  | zero => exact Prog.yields_pure (Nat.zero_le _)
  | succ n ih =>
    cases slots with
    | nil => exact Prog.yields_halt _
    | cons slot slots =>
      cases slot with
      | none => exact Prog.yields_halt _
      | some ce =>
        rw [Console.sayNames]
        refine Prog.Yields.bind (Prog.yields_any _) fun k _ => ?_
        refine Prog.Yields.bind (Prog.yields_any _) fun _ _ => ?_
        exact (ih slots).mono fun _ h => Nat.succ_le_succ h

theorem removeFunction_yields (L : Lib) (argv : List CStr) (hc : Cache.Shape c) :
    (Console.removeFunction L argv c).Yields Cache.Shape := by
  rw [Console.removeFunction]
  split
  · exact Prog.yields_halt _
  · rename_i path _
    -- the array is sound afterwards, if not the count
    have hremove : (Console.removeFileFromCache L path.1 c).Yields fun c' =>
        c'.activeCache.length = c'.activeAlloc ∧ c'.activeAlloc < 2 ^ 31 := by
      have hpos : (Console.sys (Remove.cacheNamePos L c path.1 path.1.length)).Yields
          fun r => r.2.Shape := by
        refine Prog.Yields.embed ?_
        rw [Remove.cacheNamePos]
        refine Prog.Yields.bind (readCache_shape L hc) fun r hr => ?_
        dsimp only
        split
        · exact Prog.yields_pure hr
        · exact Prog.Yields.bind (Prog.yields_any _) fun _ _ => Prog.yields_pure hr
      rw [Console.removeFileFromCache]
      refine Prog.Yields.bind hpos fun r hr => ?_
      obtain ⟨pos, c'⟩ := r
      refine Prog.Yields.bind (Prog.yields_any _) fun _ _ => ?_
      split
      · refine Prog.Yields.bind (Prog.yields_ofOption _ fun _ h => h) fun slots hslots => ?_
        exact Prog.yields_pure ⟨(shiftDown_length hslots).trans hr.len, hr.alloc⟩
      · exact Prog.yields_pure ⟨hr.len, hr.alloc⟩
    refine Prog.Yields.bind hremove fun c' hc' => ?_
    refine Prog.Yields.bind (sayNames_yields _ _) fun _ hle => ?_
    exact Prog.yields_pure ⟨hle.trans_eq hc'.1, hc'.1, hc'.2⟩

theorem Handler.body_yields (E : Env) (argv : List CStr) (hc : Cache.Shape c) (h : Handler) :
    (h.body E argv c).Yields Cache.Shape := by
  have hkept : ∀ {α : Type} (p : GitProc α), (do
      let _ ← p
      return c : GitProc Cache).Yields Cache.Shape := fun p =>
    Prog.Yields.bind (Prog.yields_any p) fun _ _ => Prog.yields_pure hc
  cases h with
  | init => exact hkept _
  | catFile => exact hkept _
  | readTree => exact hkept _
  | removeFunction => exact removeFunction_yields _ _ hc
  | status =>
    have hstatus : (Console.status E.lib argv c).Yields fun r => r.2.Shape := by
      rw [Console.status]
      refine Prog.Yields.bind (Prog.yields_any _) fun _ _ => ?_
      refine Prog.Yields.bind (Prog.yields_any _) fun _ _ => ?_
      refine Prog.Yields.bind (readCache_shape _ hc).embed fun r hr => ?_
      dsimp only
      split
      · exact Prog.yields_pure hr
      · exact Prog.Yields.bind (Prog.yields_any _) fun _ _ => Prog.yields_pure hr
    exact Prog.Yields.bind hstatus fun r hr => Prog.yields_pure hr
  | updateCache =>
    have hupdate : (Console.updateCache E.lib argv c).Yields fun r => r.2.Shape := by
      rcases hc.null_or with rfl | hload
      · exact updateCache_yields _ _
      · rw [updateCache_loaded _ _ hload]
        exact Prog.yields_pure hc
    exact Prog.Yields.bind hupdate.embed fun r hr => Prog.yields_pure hr
  | showDiff =>
    refine Prog.Yields.embed ?_
    rw [Console.showDiff]
    refine Prog.Yields.bind (readCache_shape _ hc).embed fun r hr => ?_
    dsimp only
    split
    · exact Prog.yields_halt _
    · exact Prog.Yields.bind (Prog.yields_any _) fun _ _ => Prog.yields_pure hr
  | commit =>
    have htree : ∀ sha1, (Console.writeTree E.lib sha1 c).Yields fun r => r.2.Shape := by
      intro sha1
      rw [Console.writeTree]
      refine Prog.Yields.bind (readCache_shape _ hc).embed fun r hr => ?_
      dsimp only
      split
      · exact Prog.yields_halt _
      · refine Prog.Yields.bind (Prog.yields_any _) fun _ _ => ?_
        refine Prog.Yields.bind (Prog.yields_any _) fun _ _ => ?_
        exact Prog.Yields.bind (Prog.yields_any _) fun _ _ => Prog.yields_pure hr
    change (Console.commit E.lib argv E.surroundings c).Yields Cache.Shape
    rw [Console.commit]
    refine Prog.Yields.bind (Prog.yields_any _) fun sha1 _ => ?_
    refine Prog.Yields.bind (htree sha1) fun r hr => ?_
    exact Prog.Yields.bind (Prog.yields_any _) fun _ _ => Prog.yields_pure hr

end Shapes

theorem View.gitNext_lib (g : View) (o : GitOp) (r : o.Res) : (g.gitNext o r).lib = g.lib := by
  cases o with
  | console o =>
    cases o with
    | sys o => exact (g.next_same o r).lib
    | _ => rfl
  | enter h argv => cases h <;> rfl
  | _ => rfl

/-- How a handler leaves the process: no object unwritten, and if it returns, a sound array. -/
structure Left (L : Lib) (x : Except Stop Cache) (g : View) : Prop where
  object : g.object = none
  returned : ∀ c, x = .ok c → c.Shape ∧ g.Closed ∧ g.lib = L

section Whole
variable {W : Lib → List CStr → Prop} {ok : (o : Op) → o.Res → Prop} {g : View} {E : Env}

theorem Handler.wp_body (hc : Cache.Shape c) (h : Handler) (argv : List CStr) (ws : List CStr)
    (hws : ws = if h = .updateCache then argv.drop 1 else [])
    (hW : h = .updateCache → W E.lib (argv.drop 1)) :
    (h.body E argv c).wp (gitTerms W ok) AtRest (View.init E.lib ws) := by
  have hkept : ∀ {p : GitProc Unit}, p.wp (gitTerms W ok) AtRest (View.init E.lib []) →
      (do
        let _ ← p
        return c : GitProc Cache).wp (gitTerms W ok) AtRest (View.init E.lib []) := by
    intro p hp
    rw [Prog.wp_bind]
    refine Prog.wp_mono hp fun x g hx => ?_
    cases x with
    | error e => exact hx
    | ok a => exact Prog.wp_pure.2 hx
  subst hws
  cases h with
  | init =>
    rw [Handler.body, Prog.wp_bind]
    refine Prog.wp_unnoticed _ (fun _ _ => trivial) (fun _ _ _ => rfl) fun x => ?_
    cases x with
    | error e => rfl
    | ok a => exact Prog.wp_pure.2 ⟨rfl, rfl⟩
  | status =>
    rw [Handler.body, Prog.wp_bind]
    refine Prog.wp_mono (Handler.wp_status hc argv) fun x g hx => ?_
    cases x with
    | error e => exact hx
    | ok a => exact Prog.wp_pure.2 hx
  | updateCache =>
    rw [Handler.body, Prog.wp_bind]
    refine Prog.wp_mono (Handler.wp_updateCache (hW rfl) hc) fun x g hx => ?_
    cases x with
    | error e => exact hx
    | ok a => exact Prog.wp_pure.2 hx
  | showDiff => exact Handler.wp_showDiff hc
  | commit => exact Handler.wp_commit hc argv E.surroundings
  | removeFunction => exact Handler.wp_removeFunction hc argv
  | catFile => exact hkept (Handler.wp_catFile argv)
  | readTree => exact hkept (Handler.wp_readTree argv)

theorem wp_enter {Q : Except Stop Unit → View → Prop} (hg : g.Closed)
    (hW : h = .updateCache → W g.lib (argv.drop 1))
    (hQ : Q (.ok ()) (View.init g.lib (if h = .updateCache then argv.drop 1 else []))) :
    (Console.enter h argv).wp (gitTerms W ok) Q g := by
  have hnext : ∀ u, g.gitNext (.enter h argv) u =
      View.init g.lib (if h = .updateCache then argv.drop 1 else []) := by
    intro u
    cases h <;> rfl
  refine Prog.wp_ask (o := GitOp.enter h argv) |>.2 ⟨⟨hg.1, hg.2, hW⟩, fun u _ => ?_⟩
  rw [show (gitTerms W ok).next g (.enter h argv) u = g.gitNext (.enter h argv) u from rfl, hnext]
  exact hQ

theorem Handler.wp_run (hc : Cache.Shape c) (h : Handler) (argv : List CStr) (hg : g.Closed)
    (hL : g.lib = E.lib) (hW : h = .updateCache → W E.lib (argv.drop 1)) :
    (h.run E argv c).wp (gitTerms W ok) (Left E.lib) g := by
  rw [Handler.run, Prog.wp_bind]
  refine wp_enter hg (hL ▸ hW) ?_
  rw [Prog.andThen_ok, hL]
  refine (Handler.body_yields E argv hc h).wp ?_
  refine Prog.wp_mono (Prog.wp_keeping (I := fun g => g.lib = E.lib)
    (fun g o r hI _ _ => (g.gitNext_lib o r).trans hI)
    (Handler.wp_body hc h argv _ rfl hW) rfl) ?_
  rintro x g' ⟨hrest, hlib⟩ hyield
  cases x with
  | error e => exact ⟨hrest, fun c' hc' => by cases hc'⟩
  | ok c' =>
    refine ⟨hrest.2, ?_⟩
    rintro _ ⟨⟩
    exact ⟨hyield c' rfl, hrest, hlib⟩

theorem wp_perform (hc : Cache.Shape c) (actions : List Action) (hg : g.Closed)
    (hL : g.lib = E.lib)
    (hW : ∀ argv, (.updateCache, argv) ∈ handlerCalls actions → W E.lib (argv.drop 1)) :
    (perform E actions c).wp (gitTerms W ok) (Left E.lib) g := by
  induction actions generalizing c g with
  | nil =>
    refine Prog.wp_pure.2 ⟨hg.2, ?_⟩
    rintro c' ⟨⟩
    exact ⟨hc, hg, hL⟩
  | cons a actions ih =>
    cases a with
    | print t =>
      rw [perform, Prog.wp_bind]
      exact wp_say (ih hc hg hL hW)
    | call h argv =>
      rw [perform, Prog.wp_bind]
      refine Prog.wp_mono (Handler.wp_run hc h argv hg hL ?_) ?_
      · rintro rfl
        exact hW argv List.mem_cons_self
      · intro x g' hx
        cases x with
        | error e => exact ⟨hx.object, fun c' hc' => by cases hc'⟩
        | ok c' =>
          obtain ⟨hc', hg', hL'⟩ := hx.returned c' rfl
          exact ih hc' hg' hL' fun argv' hmem => hW argv' (List.mem_cons_of_mem _ hmem)

/-- A whole process keeps to the terms, whatever its command line, and leaves no object unwritten. -/
theorem wp_git (E : Env) (argv : List CStr)
    (hW : ∀ argv', (.updateCache, argv') ∈ gitCalls E.posix argv → W E.lib (argv'.drop 1)) :
    (git E argv).wp (gitTerms W ok) (fun _ g => g.object = none) (View.init E.lib []) := by
  obtain ⟨actions, code, hmain, hgit⟩ := git_perform E argv
  rw [gitCalls, hmain] at hW
  rw [hgit, Prog.wp_bind]
  refine Prog.wp_mono (wp_perform Cache.null_shape actions ⟨rfl, rfl⟩ rfl hW) fun x g hx => ?_
  cases x with
  | error e => exact hx.object
  | ok c => exact Prog.wp_pure.2 hx.object

end Whole

end SelfGit
