import SelfGit.Command
import SelfGit.Indeterminate
import SelfGit.Reload
import SelfGit.SizeLimits
import SelfGit.Remove
import SelfGit.WildSlots

namespace SelfGit
open Foundation
set_option autoImplicit true

/-- The answers over a working directory with files of just these names. -/
def inDirectory (names : Set Path) : (o : Op) → o.Res → Prop
  | .openRead p, .ok _ => p ∈ names
  | .openRead p, .error e => e = .ENOENT → p ∉ names
  | _, _ => True

/-- The loop over the words, run to its end, with the entries it has made of files and stored. -/
inductive Loops (L : Lib) (ok : (o : Op) → o.Res → Prop) :
    FS → Cache → List CStr → List CacheEntry → Cache → FS → Prop
  | done : Loops L ok fs c [] [] c fs
  | skipped (hv : verifyPath p = false) (h : Loops L ok fs c ps new d fs') :
      Loops L ok fs c (p :: ps) new d fs'
  | stored (hv : verifyPath p = true)
      (hopen : fs.opened p.1 (.ok fd) = some fs ∧ ok (.openRead p.1) (Except.ok fd))
      (hstat : fs.statted fd (some st) = some fs ∧ ok (.fstat fd) (some st))
      (hfile : RunsTo ok fs (indexFd L p.1.length (newEntry p st) fd st) (.ok (r, ce)) fs₁)
      (hr : ¬ r < 0) (hadd : addCacheEntry c ce = some c₁)
      (h : Loops L ok fs₁ c₁ ps new d fs') : Loops L ok fs c (p :: ps) (ce :: new) d fs'
  | missing (hv : verifyPath p = true)
      (hopen : fs.opened p.1 (.error .ENOENT) = some fs ∧
        ok (.openRead p.1) (Except.error Errno.ENOENT))
      (hrem : removeFileFromCache c p.1 = some c₁) (hn : ok (.noReturn c p.1) (0 : Int))
      (h : Loops L ok fs c₁ ps new d fs') : Loops L ok fs c (p :: ps) new d fs'

/-- A call of `update_cache` that returns 0, with the entries it has stored. -/
inductive Adds (L : Lib) (ok : (o : Op) → o.Res → Prop) (fs : FS) (argv : List CStr) :
    Cache → List CacheEntry → Cache → FS → Prop
  | intro (hread : RunsTo ok fs (readCache L Cache.null) (.ok (n, c)) fs₁) (hn : ¬ n < 0)
      (hlock : fs₁.created lockPath (.ok fd) = some fs₂ ∧ ok (.openExcl lockPath) (Except.ok fd))
      (hloop : Loops L ok fs₂ c (argv.drop 1) new d fs₃)
      (hinstall : RunsTo ok fs₃ (installCache L fd d) (.ok (some 0, d)) fs') :
      Adds L ok fs argv c new d fs'

section Runs
variable {L : Lib} {ok : (o : Op) → o.Res → Prop} {fs fs' : FS}

theorem addFileToCache_done : RunsTo ok fs (addFileToCache L c p) (.ok (0, d)) fs' ↔
    (∃ fd st r ce, (fs.opened p.1 (.ok fd) = some fs ∧ ok (.openRead p.1) (Except.ok fd)) ∧
      (fs.statted fd (some st) = some fs ∧ ok (.fstat fd) (some st)) ∧
      RunsTo ok fs (indexFd L p.1.length (newEntry p st) fd st) (.ok (r, ce)) fs' ∧ ¬ r < 0 ∧
      addCacheEntry c ce = some d) ∨
    ((fs.opened p.1 (.error .ENOENT) = some fs ∧
        ok (.openRead p.1) (Except.error Errno.ENOENT)) ∧
      removeFileFromCache c p.1 = some d ∧ ok (.noReturn c p.1) (0 : Int) ∧ fs' = fs) := by
  simp only [addFileToCache, runs_openRead]
  constructor
  · rintro ⟨r, hopen, h⟩
    cases r with
    | error e =>
      by_cases he : e = .ENOENT
      · subst he
        simp only [↓reduceIte, runs_defined] at h
        rcases h with ⟨c', hrem, h⟩ | ⟨-, h, -⟩
        · obtain ⟨n, fs₁, ⟨hstep, hn⟩, h⟩ := (runs_ask _).1 h
          obtain ⟨hx, rfl⟩ := Prog.runs_pure.1 h
          cases hx
          exact .inr ⟨hopen, hrem, hn, (Option.some.inj hstep).symm⟩
        · cases h
      · simp only [he, ↓reduceIte] at h
        cases (Prog.runs_pure.1 h).1
    | ok fd =>
      simp only [runs_fstat] at h
      obtain ⟨st, hstat, h⟩ := h
      cases st with
      | none => cases (Prog.runs_pure.1 h).1
      | some st =>
        rw [runs_seq] at h
        rcases h with ⟨⟨r, ce⟩, fs₁, hfile, h⟩ | ⟨e, he, -⟩
        · by_cases hr : r < 0
          · simp only [hr, ↓reduceIte] at h
            cases (Prog.runs_pure.1 h).1
          · simp only [hr, ↓reduceIte, runs_defined] at h
            rcases h with ⟨c', hadd, h⟩ | ⟨-, h, -⟩
            · obtain ⟨hx, rfl⟩ := Prog.runs_pure.1 h
              cases hx
              exact .inl ⟨fd, st, r, ce, hopen, hstat, hfile, hr, hadd⟩
            · cases h
        · cases he
  · rintro (⟨fd, st, r, ce, hopen, hstat, hfile, hr, hadd⟩ | ⟨hopen, hrem, hn, rfl⟩)
    · refine ⟨.ok fd, hopen, ?_⟩
      simp only [runs_fstat]
      refine ⟨some st, hstat, ?_⟩
      rw [runs_seq]
      refine .inl ⟨(r, ce), fs', hfile, ?_⟩
      simp only [hr, ↓reduceIte, runs_defined]
      exact .inl ⟨d, hadd, Prog.runs_pure.2 ⟨rfl, rfl⟩⟩
    · refine ⟨.error .ENOENT, hopen, ?_⟩
      simp only [↓reduceIte, runs_defined]
      exact .inl ⟨d, hrem, (runs_ask _).2
        ⟨(0 : Int), fs', ⟨rfl, hn⟩, Prog.runs_pure.2 ⟨rfl, rfl⟩⟩⟩

theorem addPaths_loops : RunsTo ok fs (addPaths L ps c) (.ok (true, d)) fs' ↔
    ∃ new, Loops L ok fs c ps new d fs' := by
  induction ps generalizing fs c with
  | nil =>
    constructor
    · intro h
      obtain ⟨hx, rfl⟩ := Prog.runs_pure.1 h
      cases hx
      exact ⟨[], .done⟩
    · rintro ⟨new, h⟩
      cases h with
      | done => exact Prog.runs_pure.2 ⟨rfl, rfl⟩
  | cons p ps ih =>
    by_cases hv : verifyPath p = true
    · refine (addPaths_cons hv).trans ?_
      constructor
      · rintro (⟨r, c₁, fs₁, hadd, h⟩ | ⟨e, he, -⟩)
        · by_cases hr : r = 0
          · subst hr
            rw [if_pos rfl] at h
            obtain ⟨new, hnew⟩ := ih.1 h
            rcases addFileToCache_done.1 hadd with ⟨fd, st, r, ce, hopen, hstat, hfile, hr, hce⟩ |
              ⟨hopen, hrem, hn, rfl⟩
            · exact ⟨ce :: new, .stored hv hopen hstat hfile hr hce hnew⟩
            · exact ⟨new, .missing hv hopen hrem hn hnew⟩
          · rw [if_neg hr] at h
            cases h.1
        · cases he
      · rintro ⟨new, h⟩
        cases h with
        | skipped hv' => simp [hv] at hv'
        | stored _ hopen hstat hfile hr hce h =>
          refine .inl ⟨0, _, _, addFileToCache_done.2
            (.inl ⟨_, _, _, _, hopen, hstat, hfile, hr, hce⟩), ?_⟩
          rw [if_pos rfl]
          exact ih.2 ⟨_, h⟩
        | missing _ hopen hrem hn h =>
          refine .inl ⟨0, _, _, addFileToCache_done.2 (.inr ⟨hopen, hrem, hn, rfl⟩), ?_⟩
          rw [if_pos rfl]
          exact ih.2 ⟨_, h⟩
    · rw [addPaths, if_neg hv, ih]
      constructor
      · rintro ⟨new, h⟩
        exact ⟨new, .skipped (by simpa using hv) h⟩
      · rintro ⟨new, h⟩
        cases h with
        | skipped _ h => exact ⟨new, h⟩
        | stored hv' => exact absurd hv' hv
        | missing hv' => exact absurd hv' hv

theorem installCache_cache (h : RunsTo ok fs (installCache L fd c) (.ok (r, d)) fs') : d = c := by
  have hgive : ∀ {fs₁ : FS}, RunsTo ok fs₁ (giveUp c) (.ok (r, d)) fs' → d = c := by
    intro fs₁ h
    obtain ⟨_, _, -, h⟩ := (runs_ask _).1 h
    cases (Prog.runs_pure.1 h).1
    rfl
  rw [installCache, runs_seq] at h
  rcases h with ⟨w, fs₁, -, h⟩ | ⟨e, he, -⟩
  · split at h
    · obtain ⟨b, fs₂, -, h⟩ := (runs_ask _).1 h
      split at h
      · cases (Prog.runs_pure.1 h).1
        rfl
      · exact hgive h
    · exact hgive h
  · cases he

/-- The runs that return 0 are those of `Adds`. -/
theorem updateCache_adds : RunsTo ok fs (updateCache L argv) (.ok (some 0, d)) fs' ↔
    ∃ c new, Adds L ok fs argv c new d fs' := by
  rw [updateCache, runs_seq]
  constructor
  · rintro (⟨⟨n, c⟩, fs₁, hread, h⟩ | ⟨e, he, -⟩)
    · by_cases hn : n < 0
      · simp only [hn, ↓reduceIte] at h
        cases (Prog.runs_pure.1 h).1
      · simp only [hn, ↓reduceIte, runs_openExcl] at h
        obtain ⟨r, fs₂, hlock, h⟩ := h
        cases r with
        | error e => cases (Prog.runs_pure.1 h).1
        | ok fd =>
          rw [runs_seq] at h
          rcases h with ⟨⟨b, c'⟩, fs₃, hloop, h⟩ | ⟨e, he, -⟩
          · cases b with
            | false => exact absurd ⟨d, rfl⟩ (giveUp_not_succeeded h)
            | true =>
              simp only [↓reduceIte] at h
              obtain rfl := installCache_cache h
              obtain ⟨new, hnew⟩ := addPaths_loops.1 hloop
              exact ⟨c, new, .intro hread hn hlock hnew h⟩
          · cases he
    · cases he
  · rintro ⟨c, new, hread, hn, hlock, hloop, hinstall⟩
    refine .inl ⟨(_, c), _, hread, ?_⟩
    simp only [hn, ↓reduceIte, runs_openExcl]
    refine ⟨.ok _, _, hlock, ?_⟩
    rw [runs_seq]
    exact .inl ⟨(true, d), _, addPaths_loops.2 ⟨new, hloop⟩, hinstall⟩

theorem Adds.loaded (h : Adds L ok fs argv c new d fs') :
    loaded L (fs.read indexPath) = some c := by
  obtain ⟨hread, hn, -, -, -⟩ := h
  obtain ⟨-, hx | hx⟩ := readCache_outcome hread
  · cases hx
    exact absurd (by decide) hn
  · cases hs : fs.read indexPath with
    | none =>
      rw [hs, readResult] at hx
      cases hx
      rfl
    | some b =>
      rw [hs, readResult, readBack] at hx
      rw [SelfGit.loaded]
      split at hx
      · rename_i hb
        split at hx
        · rename_i r hr
          cases hx
          rw [if_pos hb, hr, Option.bind_some, if_neg hn]
        · cases hx
      · cases hx

theorem Adds.installed (hg : fs.Good) (h : Adds L ok fs argv c new d fs') :
    ∃ es, d.Holds es ∧ fs'.read indexPath = some (cacheImage L es) := by
  obtain ⟨g, ⟨-, hinst⟩, hend⟩ := updateCache_ends hg (updateCache_adds.2 ⟨c, new, h⟩)
  obtain ⟨es, hes, hi⟩ := hend.1 rfl
  exact ⟨es, hes, hinst _ hi⟩

theorem stored_key (hopen : fs.opened p.1 (.ok fd) = some fs)
    (hfile : RunsTo ok fs (indexFd L p.1.length (newEntry p st) fd st) (.ok (r, ce)) fs')
    (hr : ¬ r < 0) : ce.key = p.1 := by
  have hp := fits_of_lt_pathMax (possible_openRead ⟨fs, fs, hopen⟩ rfl)
  rcases indexFd_cases hfile with ⟨ce', hx⟩ | ⟨content, hx, -⟩
  · cases hx
    exact absurd (by decide) hr
  · cases hx
    exact newEntry_key hp

theorem Loops.shape (h : Loops L ok fs c ps new d fs') (hc : c.Shape) : d.Shape := by
  induction h with
  | done => exact hc
  | skipped _ _ ih => exact ih hc
  | stored _ _ _ _ _ hadd _ ih => exact ih (addCacheEntry_shape hc hadd)
  | missing _ _ hrem _ _ ih => exact ih (removeFileFromCache_shape hc hrem)

theorem Loops.keys (h : Loops L ok fs c ps new d fs') : ∀ e ∈ new, ∃ q ∈ ps, e.key = q.1 := by
  induction h with
  | done => simp
  | skipped _ _ ih =>
    intro e he
    obtain ⟨q, hq, hk⟩ := ih e he
    exact ⟨q, List.mem_cons_of_mem _ hq, hk⟩
  | stored _ hopen _ hfile hr _ _ ih =>
    intro e he
    rcases List.mem_cons.1 he with rfl | he
    · exact ⟨_, List.mem_cons_self, stored_key hopen.1 hfile hr⟩
    · obtain ⟨q, hq, hk⟩ := ih e he
      exact ⟨q, List.mem_cons_of_mem _ hq, hk⟩
  | missing _ _ _ _ _ ih =>
    intro e he
    obtain ⟨q, hq, hk⟩ := ih e he
    exact ⟨q, List.mem_cons_of_mem _ hq, hk⟩

end Runs

def strangers (ops : List CStr) (es : List CacheEntry) : List CacheEntry :=
  es.filter fun e => ∀ q ∈ ops, e.key ≠ q.1

theorem Added.strangers (h : Added es ce es') (hk : ∃ q ∈ ops, ce.key = q.1) :
    strangers ops es' = strangers ops es := by
  have hce : ¬ ∀ q ∈ ops, ce.key ≠ q.1 := by
    obtain ⟨q, hq, hk⟩ := hk
    exact fun hall => hall q hq hk
  cases h with
  | replaced l r e hes he h' =>
    subst hes h'
    simp only [SelfGit.strangers, List.filter_append, List.filter_cons, he, hce, decide_false,
      Bool.false_eq_true, ↓reduceIte]
  | inserted l r hes hl hr h' =>
    subst hes h'
    simp only [SelfGit.strangers, List.filter_append, List.filter_cons, hce, decide_false,
      Bool.false_eq_true, ↓reduceIte]

/-- What storing some entries makes of others. -/
structure Grown (ops : List CStr) (new es es' : List CacheEntry) : Prop where
  kept : strangers ops es' = strangers ops es
  old : ∀ e ∈ es, e ∈ es' ∨ ∃ f ∈ new, f.key = e.key ∧ f ∈ es'
  fresh : ∀ e ∈ new, ∃ f ∈ new, f.key = e.key ∧ f ∈ es'
  sorted : Ascending es → Ascending es'

theorem Grown.cons (h : Grown ops new es₁ es') (hadd : Added es ce es₁)
    (hk : ∃ q ∈ ops, ce.key = q.1) : Grown ops (ce :: new) es es' := by
  have hce : ∃ f ∈ ce :: new, f.key = ce.key ∧ f ∈ es' := by
    rcases h.old ce hadd.self_mem with hmem | ⟨f, hf, hkey, hmem⟩
    · exact ⟨ce, List.mem_cons_self, rfl, hmem⟩
    · exact ⟨f, List.mem_cons_of_mem _ hf, hkey, hmem⟩
  refine ⟨h.kept.trans (hadd.strangers hk), ?_, ?_, fun ha => h.sorted (hadd.ascending ha)⟩
  · intro e he
    by_cases hek : e.key = ce.key
    · rw [hek]
      exact .inr hce
    · rcases h.old e (hadd.keep he hek) with hmem | ⟨f, hf, hkey, hmem⟩
      · exact .inl hmem
      · exact .inr ⟨f, List.mem_cons_of_mem _ hf, hkey, hmem⟩
  · intro e he
    rcases List.mem_cons.1 he with rfl | he
    · exact hce
    · obtain ⟨f, hf, hkey, hmem⟩ := h.fresh e he
      exact ⟨f, List.mem_cons_of_mem _ hf, hkey, hmem⟩

theorem addCacheEntry_holds (hc : c.Shape) (hadd : addCacheEntry c ce = some c')
    (hc' : c'.Holds es') : ∃ es, c.Holds es ∧ Added es ce es' := by
  rcases hc.holds_or_wild with ⟨es, hes⟩ | hw
  · obtain ⟨es₁, h₁, hadded⟩ := addCacheEntry_spec hes hadd
    exact ⟨es, hes, h₁.unique hc' ▸ hadded⟩
  · exact absurd hc' (hw.add hc hadd).not_holds

theorem Loops.operands {L : Lib} {fs fs' : FS}
    (h : Loops L (inDirectory names) fs c ps new d fs')
    (hps : ∀ q ∈ ps, q ∈ ops ∧ verifyPath q = true ∧ q.1 ∈ names) (hc : c.Shape)
    (hd : d.Holds es') :
    (∃ es, c.Holds es ∧ Grown ops new es es') ∧ ∀ q ∈ ps, ∃ e ∈ new, e.key = q.1 := by
  induction h with
  | done => exact ⟨⟨es', hd, rfl, fun e he => .inl he, by simp, id⟩, by simp⟩
  | skipped hv =>
    have hv' := (hps _ List.mem_cons_self).2.1
    rw [hv] at hv'
    cases hv'
  | stored _ hopen _ hfile hr hadd _ ih =>
    have hkey := stored_key hopen.1 hfile hr
    obtain ⟨⟨es₁, hes₁, hgrown⟩, hstored⟩ := ih (fun q hq => hps q (List.mem_cons_of_mem _ hq))
      (addCacheEntry_shape hc hadd) hd
    obtain ⟨es, hes, hadded⟩ := addCacheEntry_holds hc hadd hes₁
    refine ⟨⟨es, hes, hgrown.cons hadded ⟨_, (hps _ List.mem_cons_self).1, hkey⟩⟩, ?_⟩
    intro q hq
    rcases List.mem_cons.1 hq with rfl | hq
    · exact ⟨_, List.mem_cons_self, hkey⟩
    · obtain ⟨e, he, hk⟩ := hstored q hq
      exact ⟨e, List.mem_cons_of_mem _ he, hk⟩
  | missing _ hopen => exact absurd (hps _ List.mem_cons_self).2.2 (hopen.2 rfl)

/-- The run has stored an entry for each operand and for nothing else, the index has one of them for
each operand, and all other entries are as they were. -/
structure ActsOn (ops : List CStr) (c : Cache) (new : List CacheEntry) (d : Cache) : Prop where
  stored : ∀ name, (∃ e ∈ new, e.key = name) ↔ ∃ q ∈ ops, q.1 = name
  fresh : ∀ q ∈ ops, ∃ e ∈ new, e.key = q.1 ∧ e ∈ d.entries
  kept : strangers ops d.entries = strangers ops c.entries
  sorted : ∀ es, c.Holds es → Ascending es → Ascending d.entries

/-- To take that name out of the cache costs no entry but of an operand. -/
def Spares (ops : List CStr) (c : Cache) (name : Path) : Prop :=
  ∀ d, removeFileFromCache c name = some d → strangers ops d.entries = strangers ops c.entries

theorem dropSlot_apart (hr : 2 ≤ r.length) (hf : f ∈ dropSlot (l ++ e :: r) l.length) :
    f ∈ l ++ r := by
  have hlen : (l ++ e :: r).length = l.length + 1 + r.length := by
    rw [List.length_append, List.length_cons]
    omega
  have hsplit : l ++ e :: r = (l ++ [e]) ++ r := by simp
  have htail : ∀ n, (l ++ e :: r).drop (l.length + 1 + n) = r.drop n := by
    intro n
    rw [hsplit, ← List.drop_drop, List.drop_left' (by simp)]
  rw [dropSlot, if_pos (by omega)] at hf
  simp only [List.mem_append] at hf ⊢
  rcases hf with (hf | hf) | hf
  · rw [List.take_left] at hf
    exact .inl hf
  · have h0 := htail 0
    rw [Nat.add_zero, List.drop_zero] at h0
    rw [h0] at hf
    exact .inr (List.mem_of_mem_take hf)
  · rw [hlen, show l.length + 1 + r.length - 2 = l.length + 1 + (r.length - 2) by omega,
      htail] at hf
    exact .inr (List.mem_of_mem_drop (List.mem_of_mem_take hf))

theorem Spares.sorted (h : Spares ops c name) (hname : ∀ q ∈ ops, name ≠ q.1) (hc : c.Holds es)
    (ha : Ascending es) (hrem : removeFileFromCache c name = some d) (hd : d.Holds es') :
    Ascending es' := by
  obtain ⟨es₁, hes₁, hremoved⟩ := removeFileFromCache_spec hc hrem
  obtain rfl := hes₁.unique hd
  have hsame := h d hrem
  rw [hd.entries_eq, hc.entries_eq] at hsame
  cases hremoved with
  | absent l r hes hl hr h' => exact h' ▸ ha
  | found l r e hes he h' =>
    have hlen : es.length = l.length + 1 + r.length := by
      rw [hes, List.length_append, List.length_cons]
      omega
    have hshort : r.length ≤ 1 := by
      by_contra hlong
      have hmem : e ∈ strangers ops es := by
        rw [strangers, List.mem_filter, hes, he]
        simpa using hname
      rw [← hsame, h', hes] at hmem
      have hapart := dropSlot_apart (by omega) (List.mem_of_mem_filter hmem)
      have hnd := ha.nodup
      rw [hes, List.nodup_middle, List.nodup_cons] at hnd
      exact hnd.1 hapart
    rw [h', dropSlot_near_end (by omega) (by omega)]
    exact ha.sublist (List.take_sublist _ _)

theorem verifyPathLoop_inside (h : verifyPathLoop true path = true) :
    verifyPathLoop false path = true := by
  cases path with
  | nil => cases h
  | cons c path =>
    rw [verifyPathLoop] at h
    split at h
    · rename_i hc
      rw [verifyPathLoop, if_neg hc.2.2, if_neg hc.1]
      exact h
    · cases h

theorem AddLine.paths (h : AddLine p words argv) (hp : verifyPath p = true) : ∃ w rest,
    argv.drop 1 = w :: rest ∧ verifyPath w = true ∧ (∀ q ∈ rest, q ∈ p :: words) ∧
      ∀ q ∈ words, q ∈ rest := by
  have hinside := verifyPathLoop_inside hp
  cases h with
  | @long name w prog hname hw =>
    refine ⟨w, p :: words, rfl, ?_, fun q hq => hq, fun q hq => List.mem_cons_of_mem _ hq⟩
    rw [verifyPath, hw]
    simp only [List.mem_cons, List.not_mem_nil, or_false] at hname
    rcases hname with rfl | rfl | rfl
    · decide
    · decide
    · decide
  | @longAttached name w prog hname hw =>
    refine ⟨w, words, rfl, ?_, fun q hq => List.mem_cons_of_mem _ hq, fun q hq => hq⟩
    rw [verifyPath, hw]
    simp only [List.mem_cons, List.not_mem_nil, or_false] at hname
    rcases hname with rfl | rfl | rfl
    · exact hinside
    · exact hinside
    · exact hinside
  | @short w prog hw =>
    refine ⟨w, p :: words, rfl, ?_, fun q hq => hq, fun q hq => List.mem_cons_of_mem _ hq⟩
    rw [verifyPath, hw]
    decide
  | @shortAttached w prog hw =>
    refine ⟨w, words, rfl, ?_, fun q hq => List.mem_cons_of_mem _ hq, fun q hq => hq⟩
    rw [verifyPath, hw]
    exact hinside

theorem Grown.actsOn (h : Grown ops new es es') (hd : d.Holds es')
    (hcover : ∀ q ∈ ops, ∃ e ∈ new, e.key = q.1) (hkeys : ∀ e ∈ new, ∃ q ∈ ops, e.key = q.1)
    (hkept : strangers ops es = strangers ops c.entries)
    (hsorted : ∀ es₀, c.Holds es₀ → Ascending es₀ → Ascending es) : ActsOn ops c new d := by
  refine ⟨?_, ?_, ?_, ?_⟩
  · intro name
    constructor
    · rintro ⟨e, he, rfl⟩
      obtain ⟨q, hq, hk⟩ := hkeys e he
      exact ⟨q, hq, hk.symm⟩
    · rintro ⟨q, hq, rfl⟩
      exact hcover q hq
  · intro q hq
    obtain ⟨e, he, hk⟩ := hcover q hq
    obtain ⟨f, hf, hkey, hmem⟩ := h.fresh e he
    exact ⟨f, hf, hkey.trans hk, by rwa [hd.entries_eq]⟩
  · rw [hd.entries_eq]
    exact h.kept.trans hkept
  · intro es₀ hes₀ ha
    rw [hd.entries_eq]
    exact h.sorted (hsorted es₀ hes₀ ha)

/-- Over a word and operands, the loop acts on exactly these if and only if they are there, and the
word is one of them, or leads to no file and to no loss. -/
theorem Loops.actsOn_iff {L : Lib} {fs fs' : FS} {w : CStr}
    (h : Loops L (inDirectory names) fs c (w :: rest) new d fs') (hw : verifyPath w = true)
    (hrest : ∀ q ∈ rest, q ∈ ops) (hops : ∀ q ∈ ops, verifyPath q = true ∧ q.1 ∈ names)
    (hc : c.Shape) (hd : d.Holds es') :
    ActsOn ops c new d ↔
      (∀ q ∈ ops, q ∈ w :: rest) ∧ (w ∈ ops ∨ w.1 ∉ names ∧ Spares ops c w.1) := by
  have hcovered : ActsOn ops c new d → ∀ q ∈ ops, q ∈ w :: rest := by
    intro hacts q hq
    obtain ⟨e, he, hk⟩ := (hacts.stored q.1).2 ⟨q, hq, rfl⟩
    obtain ⟨q', hq', hk'⟩ := h.keys e he
    rwa [Subtype.ext (hk.symm.trans hk')]
  have hps : ∀ q ∈ rest, q ∈ ops ∧ verifyPath q = true ∧ q.1 ∈ names :=
    fun q hq => ⟨hrest q hq, hops q (hrest q hq)⟩
  cases h with
  | skipped hv =>
    rw [hw] at hv
    cases hv
  | stored hv hopen hstat hfile hr hadd hloop =>
    have hkey := stored_key hopen.1 hfile hr
    obtain ⟨⟨es₁, hes₁, hgrown⟩, hstored⟩ :=
      hloop.operands hps (addCacheEntry_shape hc hadd) hd
    obtain ⟨es, hes, hadded⟩ := addCacheEntry_holds hc hadd hes₁
    constructor
    · intro hacts
      obtain ⟨q, hq, hqw⟩ := (hacts.stored w.1).1 ⟨_, List.mem_cons_self, hkey⟩
      rw [Subtype.ext hqw] at hq
      exact ⟨hcovered hacts, .inl hq⟩
    · rintro ⟨hcover, hcond⟩
      have hwops : w ∈ ops := by
        rcases hcond with hwops | ⟨hnone, -⟩
        · exact hwops
        · exact absurd hopen.2 hnone
      refine (hgrown.cons hadded ⟨w, hwops, hkey⟩).actsOn hd ?_ ?_ ?_ ?_
      · intro q hq
        rcases List.mem_cons.1 (hcover q hq) with rfl | hq
        · exact ⟨_, List.mem_cons_self, hkey⟩
        · obtain ⟨e, he, hk⟩ := hstored q hq
          exact ⟨e, List.mem_cons_of_mem _ he, hk⟩
      · intro e he
        rcases List.mem_cons.1 he with rfl | he
        · exact ⟨w, hwops, hkey⟩
        · obtain ⟨q, hq, hk⟩ := hloop.keys e he
          exact ⟨q, hrest q hq, hk⟩
      · rw [hes.entries_eq]
      · intro es₀ hes₀ ha
        rwa [hes.unique hes₀]
  | missing hv hopen hrem hn hloop =>
    have hnone : w.1 ∉ names := hopen.2 rfl
    have hwops : ∀ q ∈ ops, w.1 ≠ q.1 := by
      intro q hq hwq
      exact hnone (hwq ▸ (hops q hq).2)
    obtain ⟨⟨es₁, hes₁, hgrown⟩, hstored⟩ :=
      hloop.operands hps (removeFileFromCache_shape hc hrem) hd
    constructor
    · intro hacts
      refine ⟨hcovered hacts, .inr ⟨hnone, ?_⟩⟩
      intro d' hd'
      rw [hrem, Option.some.injEq] at hd'
      subst hd'
      rw [← hacts.kept, hd.entries_eq, hes₁.entries_eq]
      exact hgrown.kept.symm
    · rintro ⟨hcover, hcond⟩
      have hspares : Spares ops c w.1 := by
        rcases hcond with hmem | ⟨-, hspares⟩
        · exact absurd rfl (hwops w hmem)
        · exact hspares
      refine hgrown.actsOn hd ?_ ?_ ?_ ?_
      · intro q hq
        rcases List.mem_cons.1 (hcover q hq) with rfl | hmem
        · exact absurd rfl (hwops q hq)
        · exact hstored q hmem
      · intro e he
        obtain ⟨q, hq, hk⟩ := hloop.keys e he
        exact ⟨q, hrest q hq, hk⟩
      · rw [← hes₁.entries_eq]
        exact hspares _ hrem
      · intro es₀ hes₀ ha
        exact hspares.sorted hwops hes₀ ha hrem hes₁

/-- A call of `update_cache` that succeeds has acted on exactly the operands if and only if the
argument is one of the words, and the word of the option is the argument, or does no harm. -/
theorem acts_on_operands {L : Lib} {fs : FS} {names : Set Path} (posix : Bool) (hg : fs.Good)
    (hline : AddLine p words argv) (hwords : ∀ v ∈ words, nonoption v.1 = true)
    (hops : ∀ q ∈ p :: words, verifyPath q = true ∧ q.1 ∈ names) :
    (∃ actions, main posix argv = some (actions, 0) ∧ handlerCalls actions = [(.updateCache, argv)]) ∧
      ∀ c new d fs', Adds L (inDirectory names) fs argv c new d fs' →
        loaded L (fs.read indexPath) = some c ∧
          fs'.read indexPath = some (cacheImage L d.entries) ∧
          (ActsOn (p :: words) c new d ↔ p ∈ argv.drop 1 ∧ ∀ w ∈ argv[1]?,
            w ∈ p :: words ∨ w.1 ∉ names ∧ Spares (p :: words) c w.1) := by
  have hp := (hops p List.mem_cons_self).1
  have hne : p.1 ≠ [] := by
    intro h0
    rw [verifyPath, h0] at hp
    cases hp
  refine ⟨⟨_, main_add posix hline hne hwords, ?_⟩, ?_⟩
  · exact congrArg _ (handlerCalls_nonOptionArguments words)
  · intro c new d fs' hadds
    obtain ⟨es, hes, hread⟩ := hadds.installed hg
    have hloaded := hadds.loaded
    refine ⟨hloaded, by rw [hes.entries_eq]; exact hread, ?_⟩
    obtain ⟨w, rest, hdrop, hw, hrest, hcover⟩ := hline.paths hp
    have hfirst : argv[1]? = some w := by
      have h0 := congrArg (·[0]?) hdrop
      simpa using h0
    obtain ⟨-, -, -, hloop, -⟩ := hadds
    rw [hdrop] at hloop ⊢
    rw [hloop.actsOn_iff hw hrest hops (loaded_shape hloaded) hes, hfirst]
    simp only [Option.mem_def, Option.some.injEq, forall_eq']
    refine and_congr_left fun _ => ⟨fun hall => hall p List.mem_cons_self, ?_⟩
    intro hmem q hq
    rcases List.mem_cons.1 hq with rfl | hq
    · exact hmem
    · exact List.mem_cons_of_mem _ (hcover q hq)

instance (names : List Path) (o : Op) (r : o.Res) :
    Decidable (inDirectory {p | p ∈ names} o r) :=
  match o, r with
  | .openRead p, .ok _ => inferInstanceAs (Decidable (p ∈ names))
  | .openRead p, .error e => inferInstanceAs (Decidable (e = .ENOENT → ¬ p ∈ names))
  | .accessDir _, _ | .access _, _ | .openExcl _, _ | .fstat _, _ | .mmap _ _, _ | .write _ _, _
  | .rename _ _, _ | .unlink _, _ | .malloc _, _ | .memory _, _ | .noReturn _ _, _
  | .treeOf _, _ => isTrue trivial

/-- An undisturbed run over the given files, if `n` operations are enough for it to return 0. -/
def addsFiles (files : Files) (argv : List CStr) (n : Nat) : Bool :=
  match Prog.exec (FS.serve files) (FS.stepIf (inDirectory {p | p ∈ files.map Prod.fst})) n
    FS.empty (updateCache storedLib argv) with
  | some (.ok (some r, _), _) => r = 0
  | _ => false

theorem addsFiles_adds (h : addsFiles files argv n = true) : ∃ c new d fs',
    Adds storedLib (inDirectory {p | p ∈ files.map Prod.fst}) FS.empty argv c new d fs' := by
  rw [addsFiles] at h
  split at h
  · rename_i r d fs' hexec
    obtain rfl : r = 0 := by simpa using h
    obtain ⟨c, new, hadds⟩ := updateCache_adds.1 (exec_runsTo hexec)
    exact ⟨c, new, d, fs', hadds⟩
  · cases h

/-- `git --add a` where there is a file `a`, but none of the name of the option: with 0 for the
value that is not returned, the entry of `a` is added. -/
theorem acts_on_operands_apart : ∃ c new d fs', Adds storedLib
    (inDirectory {p | p ∈ [str "a"]}) FS.empty [cstr "git", cstr "--add", cstr "a"] c new d fs' ∧
      ActsOn [cstr "a"] c new d := by
  have hrun : addsFiles [(str "a", str "x")] [cstr "git", cstr "--add", cstr "a"] 20 = true := by
    decide +kernel
  have hline : AddLine (cstr "a") [] [cstr "git", cstr "--add", cstr "a"] :=
    .long (show str "add" ∈ _ by decide) (by decide)
  have hops : ∀ q ∈ [cstr "a"], verifyPath q = true ∧ q.1 ∈ {p | p ∈ [str "a"]} := by decide
  obtain ⟨c, new, d, fs', hadds⟩ := addsFiles_adds hrun
  refine ⟨c, new, d, fs', hadds, ?_⟩
  obtain ⟨hloaded, -, hiff⟩ := (acts_on_operands false FS.empty_good hline (by simp) hops).2
    c new d fs' hadds
  cases hloaded
  refine hiff.2 ⟨by decide, ?_⟩
  rintro w ⟨⟩
  refine .inr ⟨by decide, ?_⟩
  intro d' hd'
  have hsame : removeFileFromCache Cache.null (cstr "--add").1 = some Cache.null := by decide
  rw [hsame] at hd'
  cases hd'
  rfl

/-- `git --add=a` where there are files of both names: the one added is `--add=a`. -/
theorem attached_argument_missed : ¬ ∀ (names : Set Path) L (fs : FS) (p : CStr) words argv c new d
    fs', fs.Good → AddLine p words argv → (∀ v ∈ words, nonoption v.1 = true) →
      (∀ q ∈ p :: words, verifyPath q = true ∧ q.1 ∈ names) →
      Adds L (inDirectory names) fs argv c new d fs' → ActsOn (p :: words) c new d := by
  intro hall
  have hrun : addsFiles [(str "--add=a", str "y"), (str "a", str "x")]
      [cstr "git", cstr "--add=a"] 20 = true := by
    decide +kernel
  have hline : AddLine (cstr "a") [] [cstr "git", cstr "--add=a"] :=
    .longAttached (show str "add" ∈ _ by decide) (by decide)
  obtain ⟨c, new, d, fs', hadds⟩ := addsFiles_adds hrun
  have hacts := hall _ storedLib FS.empty (cstr "a") [] _ c new d fs' FS.empty_good hline (by simp)
    (by decide) hadds
  obtain ⟨e, he, hk⟩ := (hacts.stored (str "a")).2 ⟨cstr "a", List.mem_cons_self, by decide⟩
  obtain ⟨-, -, -, hloop, -⟩ := hadds
  obtain ⟨q, hq, hkey⟩ := hloop.keys e he
  rw [List.mem_singleton.1 hq, hk] at hkey
  exact absurd hkey (by decide)

end SelfGit
