import SelfGit.Answers
import SelfGit.Foundation.Determinism
import SelfGit.Foundation.Exec
import SelfGit.Processes
import SelfGit.StoredZlib

namespace SelfGit
open Foundation
set_option autoImplicit true

/-- The value found where `remove_file_from_cache` ends without returning one. -/
def Indeterminate : Op → Prop
  | .noReturn _ _ => True
  | _ => False

/-- The operations on which it turns whether a run installs an index. -/
def Deciding : Op → Prop
  | .noReturn _ _ | .rename _ _ => True
  | _ => False

theorem Deciding.of_indeterminate : ∀ o, Indeterminate o → Deciding o
  | .noReturn _ _, _ => trivial

def Moving : Op → Prop
  | .rename _ _ => True
  | _ => False

theorem Deciding.of_moving : ∀ o, Moving o → Deciding o
  | .rename _ _, _ => trivial

def Installing : (o : Op) → o.Res → Prop
  | .rename _ _, done => done = true
  | _, _ => False

/-- How the surroundings answer: the working directory, the clock, and what happens to fail. -/
abbrev Behaviour := FS → (o : Op) → o.Res

/-- Answers as given, but any value where it is indeterminate. -/
def Follows (b : Behaviour) (fs : FS) (o : Op) (r : o.Res) (fs' : FS) : Prop :=
  fs.step o r = some fs' ∧ (¬ Indeterminate o → r = b fs o)

def Exactly (b : Behaviour) (fs : FS) (o : Op) (r : o.Res) (fs' : FS) : Prop :=
  fs.step o r = some fs' ∧ r = b fs o

/-- Answers as given, and no indeterminate value among them. -/
def Unasked (b : Behaviour) (fs : FS) (o : Op) (r : o.Res) (fs' : FS) : Prop :=
  Exactly b fs o r fs' ∧ ¬ Indeterminate o

/-- Answers as given, and no renaming that succeeds among them. -/
def Uninstalled (b : Behaviour) (fs : FS) (o : Op) (r : o.Res) (fs' : FS) : Prop :=
  Exactly b fs o r fs' ∧ ¬ Installing o r

/-- Every indeterminate value happens to be `n`. -/
def Behaviour.finding (b : Behaviour) (n : Int) : Behaviour
  | _, .noReturn _ _ => n
  | fs, o => b fs o

theorem Behaviour.finding_of_not (b : Behaviour) (n : Int) (fs : FS) (h : ¬ Indeterminate o) :
    b.finding n fs o = b fs o := by
  cases o with
  | noReturn c p => exact absurd trivial h
  | _ => rfl

section Relations
variable {b : Behaviour} {fs fs' : FS} {o : Op} {r : o.Res}

theorem Unasked.exactly (h : Unasked b fs o r fs') (n : Int) :
    Exactly (b.finding n) fs o r fs' := ⟨h.1.1, h.1.2.trans (b.finding_of_not n fs h.2).symm⟩

theorem Exactly.follows (h : Exactly (b.finding n) fs o r fs') : Follows b fs o r fs' :=
  ⟨h.1, fun hn => h.2.trans (b.finding_of_not n fs hn)⟩

theorem Unasked.follows (h : Unasked b fs o r fs') : Follows b fs o r fs' :=
  (h.exactly 0).follows

theorem Follows.unasked (hn : ¬ Indeterminate o) (h : Follows b fs o r fs') :
    Unasked b fs o r fs' := ⟨⟨h.1, h.2 hn⟩, hn⟩

theorem Follows.possible (h : Follows b fs o r fs') : Answers anyAnswer fs o r fs' :=
  ⟨h.1, trivial⟩

end Relations

theorem defined_avoids (a : Option α) : (defined a).Avoids Deciding :=
  Prog.avoids_ofOption a Stop.fault

theorem readCache_avoids (L : Lib) (c : Cache) : (readCache L c).Avoids Deciding := by
  rw [readCache]
  split
  · exact Prog.avoids_pure _
  · apply Prog.Avoids.bind (Prog.avoids_ask id)
    intro r
    split
    · apply Prog.Avoids.bind (Prog.avoids_ask id)
      intro r
      cases r with
      | error e => exact Prog.avoids_pure _
      | ok fd =>
        apply Prog.Avoids.bind (Prog.avoids_ask id)
        intro r
        cases r with
        | none => exact Prog.avoids_pure _
        | some st =>
          dsimp only
          split
          · apply Prog.Avoids.bind (Prog.avoids_ask id)
            intro r
            cases r with
            | none => exact Prog.avoids_pure _
            | some m => exact defined_avoids _
          · exact Prog.avoids_halt _
    · exact Prog.avoids_pure _

theorem writeSha1Buffer_avoids (L : Lib) (s : Sha1) (buf : List Byte) :
    (writeSha1Buffer L s buf).Avoids Deciding := by
  rw [writeSha1Buffer]
  apply Prog.Avoids.bind (Prog.avoids_ask id)
  intro r
  cases r with
  | error e => exact Prog.avoids_pure _
  | ok fd =>
    apply Prog.Avoids.bind (Prog.avoids_ask id)
    intro n
    exact Prog.avoids_pure _

theorem indexFd_avoids (L : Lib) (n : Nat) (ce : CacheEntry) (fd : Fd) (st : Stat) :
    (indexFd L n ce fd st).Avoids Deciding := by
  rw [indexFd]
  apply Prog.Avoids.bind (Prog.avoids_ask id)
  intro out
  apply Prog.Avoids.bind (Prog.avoids_ask id)
  intro r
  cases r with
  | none => exact Prog.avoids_pure _
  | some content =>
    dsimp only
    split
    · apply Prog.Avoids.bind (writeSha1Buffer_avoids _ _ _)
      intro r
      exact Prog.avoids_pure _
    · exact Prog.avoids_pure _

theorem giveUp_avoids (c : Cache) : (giveUp c).Avoids Deciding := by
  apply Prog.Avoids.bind (Prog.avoids_ask id)
  intro r
  exact Prog.avoids_pure _

theorem writePieces_avoids (fd : Fd) (pieces : List (List Byte)) :
    (writePieces fd pieces).Avoids Deciding := by
  induction pieces with
  | nil => exact Prog.avoids_pure _
  | cons b bs ih =>
    rw [writePieces]
    apply Prog.Avoids.bind (Prog.avoids_ask id)
    intro r
    split
    · exact Prog.avoids_pure _
    · exact ih

theorem writeCache_avoids (L : Lib) (fd : Fd) (c : Cache) :
    (writeCache L fd c).Avoids Deciding := by
  refine Prog.Avoids.bind (defined_avoids _) ?_
  intro blocks
  exact writePieces_avoids _ _

theorem installCache_avoids (L : Lib) (fd : Fd) (c : Cache) :
    (installCache L fd c).Avoids Indeterminate := by
  have hgive := (giveUp_avoids c).mono Deciding.of_indeterminate
  refine Prog.Avoids.bind ((writeCache_avoids L fd c).mono Deciding.of_indeterminate) ?_
  intro w
  split
  · apply Prog.Avoids.bind (Prog.avoids_ask id)
    intro r
    split
    · exact Prog.avoids_pure _
    · exact hgive
  · exact hgive

section Choices
variable {b : Behaviour} {L : Lib} {fs fs' : FS}

theorem unasked_of_avoids {p : Proc α} (hp : p.Avoids Indeterminate)
    (h : Prog.Runs (Follows b) fs p x fs') : Prog.Runs (Unasked b) fs p x fs' :=
  hp.runs (fun _ _ _ _ hn hf => hf.unasked hn) h

/-- Adding a file does not ask for a missing value, or the value is its result. -/
theorem addFileToCache_follows (h : Prog.Runs (Follows b) fs (addFileToCache L c path) x fs') :
    Prog.Runs (Unasked b) fs (addFileToCache L c path) x fs' ∨
      ∃ r c', x = .ok (r, c') ∧
        Prog.Runs (Exactly (b.finding 0)) fs (addFileToCache L c path) (.ok (0, c')) fs' ∧
        ∀ r', Prog.Runs (Follows b) fs (addFileToCache L c path) (.ok (r', c')) fs' := by
  simp only [addFileToCache] at h ⊢
  obtain ⟨r, fs₁, hr, h⟩ := (Prog.runs_ask_bind _ _).1 h
  have hopen := Follows.unasked id hr
  cases r with
  | error e =>
    by_cases he : e = .ENOENT
    · simp only [he, ↓reduceIte] at h hr hopen
      rcases (Prog.runs_ofOption_bind _ _ _).1 h with ⟨c', hc', h⟩ | ⟨hc', rfl, rfl⟩
      · obtain ⟨n, fs₂, hn, h⟩ := (Prog.runs_ask_bind _ _).1 h
        obtain ⟨rfl, rfl⟩ := Prog.runs_pure.1 h
        have hsame : fs' = fs₁ := (Option.some.inj hn.1).symm
        subst hsame
        have hrest : ∀ (R : FS → (o : Op) → o.Res → FS → Prop) (k : Int),
            R fs (.openRead path.1) (Except.error .ENOENT) fs' →
            R fs' (.noReturn c path.1) k fs' → Prog.Runs R fs (addFileToCache L c path)
              (.ok (k, c')) fs' := by
          intro R k hR hk
          rw [addFileToCache]
          refine (Prog.runs_ask_bind _ _).2 ⟨.error .ENOENT, fs', hR, ?_⟩
          simp only [↓reduceIte]
          refine (Prog.runs_ofOption_bind _ _ _).2 (.inl ⟨c', hc', ?_⟩)
          exact (Prog.runs_ask_bind _ _).2 ⟨k, fs', hk, Prog.runs_pure.2 ⟨rfl, rfl⟩⟩
        right
        refine ⟨n, c', rfl, hrest _ 0 (hopen.exactly 0) ⟨rfl, rfl⟩, ?_⟩
        intro k
        exact hrest _ k hr ⟨rfl, fun hi => absurd trivial hi⟩
      · left
        refine (Prog.runs_ask_bind _ _).2 ⟨.error .ENOENT, fs', hopen, ?_⟩
        simp only [↓reduceIte]
        exact (Prog.runs_ofOption_bind _ _ _).2 (.inr ⟨hc', rfl, rfl⟩)
    · left
      refine (Prog.runs_ask_bind _ _).2 ⟨.error e, fs₁, hopen, ?_⟩
      simp only [he, ↓reduceIte] at h ⊢
      exact Prog.runs_pure.2 (Prog.runs_pure.1 h)
  | ok fd =>
    left
    refine (Prog.runs_ask_bind _ _).2 ⟨.ok fd, fs₁, hopen, ?_⟩
    refine unasked_of_avoids ?_ h
    refine Prog.Avoids.bind (Prog.avoids_ask id) ?_
    intro r
    cases r with
    | none => exact Prog.avoids_pure _
    | some st =>
      refine Prog.Avoids.bind ((indexFd_avoids _ _ _ _ _).mono Deciding.of_indeterminate) ?_
      rintro ⟨n, ce⟩
      dsimp only
      split
      · exact Prog.avoids_pure _
      · refine Prog.Avoids.bind ((defined_avoids _).mono Deciding.of_indeterminate) ?_
        intro c'
        exact Prog.avoids_pure _

theorem runs_unasked_zero {p : Proc α} (h : Prog.Runs (Unasked b) fs p x fs') :
    Prog.Runs (Exactly (b.finding 0)) fs p x fs' := h.mono fun _ _ _ _ hu => hu.exactly 0

theorem runs_unasked_follows {p : Proc α} (h : Prog.Runs (Unasked b) fs p x fs') :
    Prog.Runs (Follows b) fs p x fs' := h.mono fun _ _ _ _ hu => hu.follows

theorem runs_finding_follows {p : Proc α} (h : Prog.Runs (Exactly (b.finding n)) fs p x fs') :
    Prog.Runs (Follows b) fs p x fs' := h.mono fun _ _ _ _ hz => hz.follows

theorem addPaths_cons {R : FS → (o : Op) → o.Res → FS → Prop} (hv : verifyPath path = true) :
    Prog.Runs R fs (addPaths L (path :: ps) c) x fs' ↔
      (∃ r c₁ fs₁, Prog.Runs R fs (addFileToCache L c path) (.ok (r, c₁)) fs₁ ∧
        if r = 0 then Prog.Runs R fs₁ (addPaths L ps c₁) x fs'
        else x = .ok (false, c₁) ∧ fs' = fs₁) ∨
      ∃ e, x = .error e ∧ Prog.Runs R fs (addFileToCache L c path) (.error e) fs' := by
  rw [addPaths, if_pos hv, Prog.runs_bind]
  apply or_congr _ Iff.rfl
  have hturn : ∀ (r : Int) (c₁ : Cache) (fs₁ : FS), Prog.Runs R fs₁
      (if r ≠ 0 then pure (false, c₁) else addPaths L ps c₁) x fs' ↔
        if r = 0 then Prog.Runs R fs₁ (addPaths L ps c₁) x fs'
        else x = .ok (false, c₁) ∧ fs' = fs₁ := by
    intro r c₁ fs₁
    by_cases hr : r = 0
    · rw [if_pos hr, if_neg (not_not.2 hr)]
    · rw [if_neg hr, if_pos hr, Prog.runs_pure]
  constructor
  · rintro ⟨⟨r, c₁⟩, fs₁, hadd, h⟩
    exact ⟨r, c₁, fs₁, hadd, (hturn r c₁ fs₁).1 h⟩
  · rintro ⟨r, c₁, fs₁, hadd, h⟩
    exact ⟨(r, c₁), fs₁, hadd, (hturn r c₁ fs₁).2 h⟩

/-- The loop asks for no missing value, or it could have been ended by one. -/
theorem addPaths_follows (h : Prog.Runs (Follows b) fs (addPaths L ps c) x fs') :
    Prog.Runs (Unasked b) fs (addPaths L ps c) x fs' ∨
      (∃ c' fs'', Prog.Runs (Follows b) fs (addPaths L ps c) (.ok (false, c')) fs'') ∧
        (Prog.Runs (Exactly (b.finding 0)) fs (addPaths L ps c) x fs' ∨
          ∃ c', x = .ok (false, c')) := by
  induction ps generalizing fs c with
  | nil => exact .inl (unasked_of_avoids (Prog.avoids_pure _) h)
  | cons path ps ih =>
    by_cases hv : verifyPath path = true
    · simp only [addPaths_cons hv] at h ⊢
      rcases h with ⟨r, c₁, fs₁, hadd, h⟩ | ⟨e, rfl, hadd⟩
      · rcases addFileToCache_follows hadd with hun | ⟨r₀, c₀, hx, hzero, hany⟩
        · by_cases hr : r = 0
          · rw [if_pos hr] at h
            rcases ih h with hrest | ⟨⟨c', fs'', halt⟩, hrest⟩
            · exact .inl (.inl ⟨r, c₁, fs₁, hun, by rwa [if_pos hr]⟩)
            · refine .inr ⟨⟨c', fs'', .inl ⟨r, c₁, fs₁, runs_unasked_follows hun, ?_⟩⟩, ?_⟩
              · rwa [if_pos hr]
              · rcases hrest with hrest | hrest
                · exact .inl (.inl ⟨r, c₁, fs₁, runs_unasked_zero hun, by rwa [if_pos hr]⟩)
                · exact .inr hrest
          · rw [if_neg hr] at h
            exact .inl (.inl ⟨r, c₁, fs₁, hun, by rwa [if_neg hr]⟩)
        · -- the result is such a value: 1 ends the loop, and so did this one unless it is 0
          cases hx
          refine .inr ⟨⟨c₁, fs₁, .inl ⟨1, c₁, fs₁, hany 1, ?_⟩⟩, ?_⟩
          · rw [if_neg (by decide)]
            exact ⟨rfl, rfl⟩
          · by_cases hr : r = 0
            · rw [if_pos hr] at h
              rcases ih h with hrest | ⟨-, hrest | hrest⟩
              · exact .inl (.inl ⟨0, c₁, fs₁, hzero, by
                  rw [if_pos rfl]
                  exact runs_unasked_zero hrest⟩)
              · exact .inl (.inl ⟨0, c₁, fs₁, hzero, by rwa [if_pos rfl]⟩)
              · exact .inr hrest
            · rw [if_neg hr] at h
              exact .inr ⟨c₁, h.1⟩
      · rcases addFileToCache_follows hadd with hun | ⟨_, _, hx, -⟩
        · exact .inl (.inr ⟨e, rfl, hun⟩)
        · cases hx
    · simp only [addPaths, hv, Bool.false_eq_true, ↓reduceIte] at h ⊢
      exact ih h

end Choices

/-- `update_cache` returns 0, with the new index in place. -/
def Succeeded (x : Except Stop (Option Int × Cache)) : Prop := ∃ c, x = .ok (some 0, c)

def Behaviour.Unlinks (b : Behaviour) : Prop :=
  ∀ fs : FS, ∃ fs', fs.step (.unlink lockPath) (b fs (.unlink lockPath)) = some fs'

/-- A run asks for no missing value, or installs nothing unless all of them are 0. -/
def Parted (b : Behaviour) (fs : FS) (p : Proc (Option Int × Cache))
    (x : Except Stop (Option Int × Cache)) (fs' : FS) : Prop :=
  Prog.Runs (Unasked b) fs p x fs' ∨
    (∃ y fs'', Prog.Runs (Follows b) fs p y fs'' ∧ ¬ Succeeded y) ∧
      (Prog.Runs (Exactly (b.finding 0)) fs p x fs' ∨ ¬ Succeeded x)

section Parting
variable {b : Behaviour} {L : Lib} {fs fs' : FS} {x : Except Stop (Option Int × Cache)}

theorem Parted.of_avoids {p : Proc (Option Int × Cache)} (hp : p.Avoids Indeterminate)
    (h : Prog.Runs (Follows b) fs p x fs') : Parted b fs p x fs' :=
  .inl (unasked_of_avoids hp h)

theorem Parted.bind {p : Proc α} (hp : p.Avoids Indeterminate)
    {f : α → Proc (Option Int × Cache)}
    (hf : ∀ a fs₁, Prog.Runs (Follows b) fs₁ (f a) x fs' → Parted b fs₁ (f a) x fs')
    (h : Prog.Runs (Follows b) fs (p >>= f) x fs') : Parted b fs (p >>= f) x fs' := by
  rcases (Prog.runs_bind _ _).1 h with ⟨a, fs₁, hfirst, h⟩ | ⟨e, rfl, hfirst⟩
  · have hun := unasked_of_avoids hp hfirst
    rcases hf a fs₁ h with hrest | ⟨⟨y, fs'', halt, hy⟩, hrest⟩
    · exact .inl ((Prog.runs_bind _ _).2 (.inl ⟨a, fs₁, hun, hrest⟩))
    · refine .inr ⟨⟨y, fs'', (Prog.runs_bind _ _).2 (.inl ⟨a, fs₁, hfirst, halt⟩), hy⟩, ?_⟩
      rcases hrest with hrest | hrest
      · exact .inl ((Prog.runs_bind _ _).2 (.inl ⟨a, fs₁, runs_unasked_zero hun, hrest⟩))
      · exact .inr hrest
  · exact .inl ((Prog.runs_bind _ _).2 (.inr ⟨e, rfl, unasked_of_avoids hp hfirst⟩))

theorem giveUp_not_succeeded {R : FS → (o : Op) → o.Res → FS → Prop}
    (h : Prog.Runs R fs (giveUp c) x fs') : ¬ Succeeded x := by
  rintro ⟨c', rfl⟩
  obtain ⟨r, fs₁, -, h⟩ := (Prog.runs_ask_bind _ _).1 h
  cases (Prog.runs_pure.1 h).1

theorem giveUp_follows (hb : b.Unlinks) (fs : FS) (c : Cache) :
    ∃ y fs', Prog.Runs (Follows b) fs (giveUp c) y fs' := by
  obtain ⟨fs', hs⟩ := hb fs
  exact ⟨_, fs', (Prog.runs_ask_bind _ _).2 ⟨b fs (.unlink lockPath), fs', ⟨hs, fun _ => rfl⟩,
    Prog.runs_pure.2 ⟨rfl, rfl⟩⟩⟩

theorem Parted.loop (hb : b.Unlinks) {f : Bool × Cache → Proc (Option Int × Cache)}
    (hf : ∀ a, (f a).Avoids Indeterminate) (hstop : ∀ c, f (false, c) = giveUp c)
    (h : Prog.Runs (Follows b) fs (addPaths L ps c >>= f) x fs') :
    Parted b fs (addPaths L ps c >>= f) x fs' := by
  have hgive : (∃ c' fs'', Prog.Runs (Follows b) fs (addPaths L ps c) (.ok (false, c')) fs'') →
      ∃ y fs'', Prog.Runs (Follows b) fs (addPaths L ps c >>= f) y fs'' ∧ ¬ Succeeded y := by
    rintro ⟨c', fs₁, halt⟩
    obtain ⟨y, fs'', hy⟩ := giveUp_follows hb fs₁ c'
    refine ⟨y, fs'', (Prog.runs_bind _ _).2 (.inl ⟨(false, c'), fs₁, halt, ?_⟩),
      giveUp_not_succeeded hy⟩
    rw [hstop]
    exact hy
  rcases (Prog.runs_bind _ _).1 h with ⟨a, fs₁, hloop, h⟩ | ⟨e, rfl, hloop⟩
  · have hrest := unasked_of_avoids (hf a) h
    rcases addPaths_follows hloop with hun | ⟨halt, hzero | ⟨c', hx⟩⟩
    · exact .inl ((Prog.runs_bind _ _).2 (.inl ⟨a, fs₁, hun, hrest⟩))
    · exact .inr ⟨hgive halt, .inl ((Prog.runs_bind _ _).2
        (.inl ⟨a, fs₁, hzero, runs_unasked_zero hrest⟩))⟩
    · cases hx
      rw [hstop] at h
      exact .inr ⟨hgive halt, .inr (giveUp_not_succeeded h)⟩
  · rcases addPaths_follows hloop with hun | ⟨halt, hzero | ⟨c', hx⟩⟩
    · exact .inl ((Prog.runs_bind _ _).2 (.inr ⟨e, rfl, hun⟩))
    · exact .inr ⟨hgive halt, .inl ((Prog.runs_bind _ _).2 (.inr ⟨e, rfl, hzero⟩))⟩
    · cases hx

theorem updateCache_parted (hb : b.Unlinks)
    (h : Prog.Runs (Follows b) fs (updateCache L argv) x fs') :
    Parted b fs (updateCache L argv) x fs' := by
  rw [updateCache] at h ⊢
  refine Parted.bind ((readCache_avoids _ _).mono Deciding.of_indeterminate) ?_ h
  rintro ⟨entries, c⟩ fs₁ h
  dsimp only at h ⊢
  split at h
  · rename_i hneg
    rw [if_pos hneg]
    exact Parted.of_avoids (Prog.avoids_pure _) h
  · rename_i hneg
    rw [if_neg hneg]
    refine Parted.bind (Prog.avoids_ask id) ?_ h
    intro r fs₂ h
    cases r with
    | error e => exact Parted.of_avoids (Prog.avoids_pure _) h
    | ok fd =>
      refine Parted.loop hb ?_ ?_ h
      · rintro ⟨ok, c'⟩
        dsimp only
        split
        · exact installCache_avoids _ _ _
        · exact (giveUp_avoids _).mono Deciding.of_indeterminate
      · intro c'
        rfl

end Parting

section Ending
variable {b : Behaviour} {L : Lib} {fs fs' : FS} {x : Except Stop (Option Int × Cache)}
  {ok : (o : Op) → o.Res → Prop}

/-- A run by itself ends with its books in order, and what it has installed is the index. -/
theorem updateCache_ends (hg : fs.Good) (h : RunsTo ok fs (updateCache L argv) x fs') :
    ∃ g, (Locked (fs.read indexPath) fs' (fun _ : Unit => g) ∧
      ∀ b, g.installed = some b → fs'.read indexPath = some b) ∧ Ended L x g := by
  refine Prog.Runs.on_terms (P := terms ok)
    (J := fun fs₁ g => Locked (fs.read indexPath) fs₁ (fun _ : Unit => g) ∧
      ∀ b, g.installed = some b → fs₁.read indexPath = some b) ?_ h
    ⟨Locked.start hg (fun _ => L) fun _ => argv.drop 1, fun b hb => by cases hb⟩
    (wp_updateCache L argv)
  rintro fs₁ g o r fs₂ ⟨hj, hinst⟩ ha hr
  have hm := Move.of_step ha hr.2 onLock_any hr.1
  refine ⟨hj.answers (i := ()) ha hr.1 hr.2, hj.move_alone ha.1 hm, ?_⟩
  intro b hb
  rcases hm.index hj.good (hj.held ()) with ⟨hsame, hi⟩ | hi
  · rw [hsame.read]
    exact hinst b (hi ▸ hb)
  · obtain ⟨b', hb', hread⟩ := hi.installed
    rw [hread]
    exact hb'.symm.trans hb

theorem updateCache_index (hg : fs.Good) (h : RunsTo ok fs (updateCache L argv) x fs')
    (hx : ¬ Succeeded x) : fs'.read indexPath = fs.read indexPath := by
  obtain ⟨g, ⟨hlocked, -⟩, hend⟩ := updateCache_ends hg h
  have hnone : g.installed = none := by
    cases x with
    | error e => exact hend
    | ok a =>
      obtain ⟨r, c⟩ := a
      apply (hend.2 _).1
      rintro rfl
      exact hx ⟨c, rfl⟩
  rcases hlocked.index with hread | ⟨_, bytes, hbytes, -⟩
  · exact hread
  · rw [hnone] at hbytes
    cases hbytes

theorem addPaths_avoids (L : Lib) (ps : List CStr) (c : Cache) :
    (addPaths L ps c).Avoids Moving := by
  induction ps generalizing c with
  | nil => exact Prog.avoids_pure _
  | cons path ps ih =>
    rw [addPaths]
    split
    · refine Prog.Avoids.bind ?_ fun r => ?_
      · rw [addFileToCache]
        refine Prog.Avoids.bind (Prog.avoids_ask id) fun r => ?_
        cases r with
        | error e =>
          dsimp only
          split
          · refine Prog.Avoids.bind (Prog.avoids_ofOption _ _) fun c' => ?_
            exact Prog.Avoids.bind (Prog.avoids_ask id) fun r => Prog.avoids_pure _
          · exact Prog.avoids_pure _
        | ok fd =>
          refine Prog.Avoids.bind (Prog.avoids_ask id) fun r => ?_
          cases r with
          | none => exact Prog.avoids_pure _
          | some st =>
            refine Prog.Avoids.bind ((indexFd_avoids _ _ _ _ _).mono Deciding.of_moving) fun r => ?_
            dsimp only
            split
            · exact Prog.avoids_pure _
            · exact Prog.Avoids.bind (Prog.avoids_ofOption _ _) fun c' => Prog.avoids_pure _
      · dsimp only
        split
        · exact Prog.avoids_pure _
        · exact ih _
    · exact ih c

theorem updateCache_installs (h : Prog.Runs (Uninstalled b) fs (updateCache L argv) x fs') :
    ¬ Succeeded x := by
  rintro ⟨c, rfl⟩
  rw [updateCache] at h
  rcases (Prog.runs_bind _ _).1 h with ⟨⟨entries, c₁⟩, fs₁, -, h⟩ | ⟨e, he, -⟩
  · dsimp only at h
    split at h
    · cases (Prog.runs_pure.1 h).1
    · obtain ⟨r, fs₂, -, h⟩ := (Prog.runs_ask_bind _ _).1 h
      cases r with
      | error e => cases (Prog.runs_pure.1 h).1
      | ok fd =>
        rcases (Prog.runs_bind _ _).1 h with ⟨⟨ok, c₂⟩, fs₃, -, h⟩ | ⟨e, he, -⟩
        · dsimp only at h
          split at h
          · rw [installCache] at h
            rcases (Prog.runs_bind _ _).1 h with ⟨w, fs₄, -, h⟩ | ⟨e, he, -⟩
            · split at h
              · obtain ⟨done, fs₅, ⟨-, hnot⟩, h⟩ := (Prog.runs_ask_bind _ _).1 h
                split at h
                · rename_i hdone
                  exact hnot hdone
                · exact giveUp_not_succeeded h ⟨c, rfl⟩
              · exact giveUp_not_succeeded h ⟨c, rfl⟩
            · cases he
          · exact giveUp_not_succeeded h ⟨c, rfl⟩
        · cases he
  · cases he

theorem uninstalled_of_avoids {p : Proc α} (hp : p.Avoids Moving) {y : Except Stop α}
    (h : Prog.Runs (Exactly b) fs p y fs') : Prog.Runs (Uninstalled b) fs p y fs' := by
  refine hp.runs (fun w o r w' hn he => ⟨he, fun hi => hn ?_⟩) h
  cases o with
  | rename p q => trivial
  | _ => exact hi

/-- An update that has renamed the lock file succeeds. -/
theorem updateCache_uninstalled (h : Prog.Runs (Exactly b) fs (updateCache L argv) x fs')
    (hx : ¬ Succeeded x) : Prog.Runs (Uninstalled b) fs (updateCache L argv) x fs' := by
  have hgive : ∀ {c : Cache} {fs₁ : FS}, Prog.Runs (Exactly b) fs₁ (giveUp c) x fs' →
      Prog.Runs (Uninstalled b) fs₁ (giveUp c) x fs' := fun h =>
    uninstalled_of_avoids ((giveUp_avoids _).mono Deciding.of_moving) h
  rw [updateCache] at h ⊢
  have hread := (readCache_avoids L Cache.null).mono Deciding.of_moving
  rcases (Prog.runs_bind _ _).1 h with ⟨⟨entries, c₁⟩, fs₁, hr, h⟩ | ⟨e, rfl, hr⟩
  · refine (Prog.runs_bind _ _).2 (.inl ⟨_, fs₁, uninstalled_of_avoids hread hr, ?_⟩)
    dsimp only at h ⊢
    split at h
    · rename_i hneg
      rw [if_pos hneg]
      exact uninstalled_of_avoids (Prog.avoids_pure _) h
    · rename_i hneg
      rw [if_neg hneg]
      obtain ⟨r, fs₂, hopen, h⟩ := (Prog.runs_ask_bind _ _).1 h
      refine (Prog.runs_ask_bind _ _).2 ⟨r, fs₂, ⟨hopen, id⟩, ?_⟩
      cases r with
      | error e => exact uninstalled_of_avoids (Prog.avoids_pure _) h
      | ok fd =>
        have hadd := addPaths_avoids L (argv.drop 1) c₁
        rcases (Prog.runs_bind _ _).1 h with ⟨⟨ok, c₂⟩, fs₃, ha, h⟩ | ⟨e, rfl, ha⟩
        · refine (Prog.runs_bind _ _).2 (.inl ⟨_, fs₃, uninstalled_of_avoids hadd ha, ?_⟩)
          dsimp only at h ⊢
          split at h
          · rename_i hok
            rw [if_pos hok]
            rw [installCache] at h ⊢
            have hwrite := (writeCache_avoids L fd c₂).mono Deciding.of_moving
            rcases (Prog.runs_bind _ _).1 h with ⟨w, fs₄, hw, h⟩ | ⟨e, rfl, hw⟩
            · refine (Prog.runs_bind _ _).2 (.inl ⟨w, fs₄, uninstalled_of_avoids hwrite hw, ?_⟩)
              split at h
              · rename_i h0
                rw [if_pos h0]
                obtain ⟨done, fs₅, hren, h⟩ := (Prog.runs_ask_bind _ _).1 h
                cases done with
                | true =>
                  exact absurd ⟨c₂, (Prog.runs_pure.1 h).1⟩ hx
                | false =>
                  refine (Prog.runs_ask_bind _ _).2 ⟨false, fs₅, ⟨hren, Bool.false_ne_true⟩, ?_⟩
                  exact hgive h
              · rename_i h0
                rw [if_neg h0]
                exact hgive h
            · exact (Prog.runs_bind _ _).2 (.inr ⟨e, rfl, uninstalled_of_avoids hwrite hw⟩)
          · rename_i hok
            rw [if_neg hok]
            exact hgive h
        · exact (Prog.runs_bind _ _).2 (.inr ⟨e, rfl, uninstalled_of_avoids hadd ha⟩)
  · exact (Prog.runs_bind _ _).2 (.inr ⟨e, rfl, uninstalled_of_avoids hread hr⟩)

def Determined (b : Behaviour) (L : Lib) (fs : FS) (argv : List CStr) : Prop :=
  ∀ x y fs₁ fs₂, Prog.Runs (Follows b) fs (updateCache L argv) x fs₁ →
    Prog.Runs (Follows b) fs (updateCache L argv) y fs₂ →
    fs₁.read indexPath = fs₂.read indexPath ∧ (Succeeded x ↔ Succeeded y)

theorem Unasked.agree {o : Op} {r r' : o.Res} {fs₁ fs₂ : FS} (h : Unasked b fs o r fs₁)
    (h' : Follows b fs o r' fs₂) : r = r' ∧ fs₁ = fs₂ := by
  obtain rfl : r = r' := h.1.2.trans (h'.2 h.2).symm
  exact ⟨rfl, Option.some.inj (h.1.1.symm.trans h'.1)⟩

/-- When, with every value 0, nothing is found missing or the lock file is not renamed, the values
make no difference; and only then. -/
theorem indeterminate_unused (hg : fs.Good) (hb : b.Unlinks) :
    Determined b L fs argv ↔ ∀ x fs', Prog.Runs (Exactly (b.finding 0)) fs (updateCache L argv) x fs' →
      Prog.Runs (Unasked b) fs (updateCache L argv) x fs' ∨
        Prog.Runs (Uninstalled (b.finding 0)) fs (updateCache L argv) x fs' := by
  constructor
  · intro hdet x fs' hzero
    have hrun := runs_finding_follows hzero
    rcases updateCache_parted hb hrun with hun | ⟨⟨y, fs'', hother, hy⟩, -⟩
    · exact .inl hun
    · refine .inr (updateCache_uninstalled hzero fun hx => hy ?_)
      exact (hdet x y fs' fs'' hrun hother).2.1 hx
  · intro hcond
    -- a run that asked for a value has not succeeded, and neither has any other
    have hsplit : ∀ x fs', Prog.Runs (Follows b) fs (updateCache L argv) x fs' →
        Prog.Runs (Unasked b) fs (updateCache L argv) x fs' ∨ ¬ Succeeded x := by
      intro x fs' h
      rcases updateCache_parted hb h with hun | ⟨-, hzero | hx⟩
      · exact .inl hun
      · exact (hcond x fs' hzero).imp_right updateCache_installs
      · exact .inr hx
    have hagree : ∀ x y fs₁ fs₂, Prog.Runs (Unasked b) fs (updateCache L argv) x fs₁ →
        Prog.Runs (Follows b) fs (updateCache L argv) y fs₂ → x = y ∧ fs₁ = fs₂ := by
      intro x y fs₁ fs₂ h h'
      refine Prog.Runs.agree ?_ h h'
      intro fs o r fs₁ r' fs₂ hu hf
      exact hu.agree hf
    have hkept : ∀ x fs', Prog.Runs (Follows b) fs (updateCache L argv) x fs' → ¬ Succeeded x →
        fs'.read indexPath = fs.read indexPath := fun x fs' h hx =>
      updateCache_index hg (h.mono fun _ _ _ _ hf => hf.possible) hx
    intro x y fs₁ fs₂ hx hy
    rcases hsplit x fs₁ hx with hun | hnx
    · obtain ⟨rfl, rfl⟩ := hagree x y fs₁ fs₂ hun hy
      exact ⟨rfl, Iff.rfl⟩
    · rcases hsplit y fs₂ hy with hun | hny
      · obtain ⟨rfl, rfl⟩ := hagree y x fs₂ fs₁ hun hx
        exact ⟨rfl, Iff.rfl⟩
      · rw [hkept x fs₁ hx hnx, hkept y fs₂ hy hny]
        exact ⟨rfl, iff_of_false hnx hny⟩

end Ending

def FS.stepUnasked (fs : FS) : (o : Op) → o.Res → Option FS
  | .noReturn _ _, _ => none
  | o, r => fs.step o r

theorem FS.stepUnasked_some {fs fs' : FS} {o : Op} {r : o.Res}
    (h : fs.stepUnasked o r = some fs') : fs.step o r = some fs' ∧ ¬ Indeterminate o := by
  cases o with
  | noReturn c p => cases h
  | _ => exact ⟨h, id⟩

theorem serve_unlinks (files : Files) : Behaviour.Unlinks (FS.serve files) := by
  intro fs
  simp only [FS.step, FS.serve]
  cases hd : fs.dir lockPath with
  | none =>
    simp only [FS.unlinked, hd, Option.isSome_none]
    exact ⟨_, rfl⟩
  | some k =>
    simp only [FS.unlinked, hd, Option.isSome_some]
    exact ⟨_, rfl⟩

/-- What `update_cache` returns under the given answers, if `n` operations are enough. -/
def Behaviour.returns (b : Behaviour) (L : Lib) (fs : FS) (argv : List CStr) (n : Nat) :
    Option (Except Stop (Option Int)) :=
  (Prog.exec b FS.step n fs (updateCache L argv)).map fun r => r.1.map Prod.fst

theorem Behaviour.returns_runs {b : Behaviour} (h : b.returns L fs argv n = some (.ok r)) :
    ∃ c fs', Prog.Runs (Exactly b) fs (updateCache L argv) (.ok (r, c)) fs' := by
  obtain ⟨⟨x, fs'⟩, hexec, hx⟩ := Option.map_eq_some_iff.1 h
  cases x with
  | error e => cases hx
  | ok a =>
    obtain ⟨r', c⟩ := a
    cases hx
    exact ⟨c, fs', Prog.exec_runs (fun _ _ _ hs => ⟨hs, rfl⟩) hexec⟩

/-- `git --add a` where there are files of both names: nothing is missing. -/
theorem indeterminate_unused_both :
    Determined (FS.serve [(str "--add", str "y"), (str "a", str "x")]) storedLib FS.empty
      [cstr "git", cstr "--add", cstr "a"] := by
  refine (indeterminate_unused FS.empty_good (serve_unlinks _)).2 ?_
  intro x fs' hzero
  have hrun : (Prog.exec (FS.serve [(str "--add", str "y"), (str "a", str "x")]) FS.stepUnasked 24
      FS.empty (updateCache storedLib [cstr "git", cstr "--add", cstr "a"])).isSome = true := by
    decide +kernel
  obtain ⟨⟨y, fs''⟩, hexec⟩ := Option.isSome_iff_exists.1 hrun
  have hun := Prog.exec_runs (R := Unasked (FS.serve [(str "--add", str "y"), (str "a", str "x")]))
    (fun _ _ _ hs => ⟨⟨(FS.stepUnasked_some hs).1, rfl⟩, (FS.stepUnasked_some hs).2⟩) hexec
  obtain ⟨rfl, rfl⟩ := hun.agree (fun _ _ _ _ _ _ hu hf => hu.agree hf) (runs_finding_follows hzero)
  exact .inl hun

/-- `git --add a` where there is a file `a`, but none of the name of the option: with 0 the index is
installed and with 1 it is not. -/
theorem indeterminate_decides : ¬ ∀ b L fs (p : CStr), FS.Good fs → Behaviour.Unlinks b →
    Determined b L fs [cstr "git", cstr "--add", p] := by
  intro hall
  have hdet := hall (FS.serve [(str "a", str "x")]) storedLib FS.empty (cstr "a") FS.empty_good
    (serve_unlinks _)
  have hinstalls : (Behaviour.finding (FS.serve [(str "a", str "x")]) 0).returns storedLib
      FS.empty [cstr "git", cstr "--add", cstr "a"] 20 = some (.ok (some 0)) := by
    decide +kernel
  have haborts : (Behaviour.finding (FS.serve [(str "a", str "x")]) 1).returns storedLib
      FS.empty [cstr "git", cstr "--add", cstr "a"] 20 = some (.ok none) := by
    decide +kernel
  obtain ⟨c, fs₁, hzero⟩ := Behaviour.returns_runs hinstalls
  obtain ⟨c', fs₂, hone⟩ := Behaviour.returns_runs haborts
  obtain ⟨c'', hc⟩ := (hdet _ _ _ _ (runs_finding_follows hzero) (runs_finding_follows hone)).2.1
    ⟨c, rfl⟩
  cases hc

end SelfGit
