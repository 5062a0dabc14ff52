import SelfGit.CommitTerms
import SelfGit.CommitWithoutTree
import SelfGit.Sessions

namespace SelfGit
open Foundation
set_option autoImplicit true

def FS.Stored (L : Lib) (fs : FS) (s : Sha1) : Prop := fs.dir (sha1FileName L s) ≠ none

/-- All entries have their objects in the store. -/
def Linked (L : Lib) (fs : FS) (es : List CacheEntry) : Prop := ∀ e ∈ es, fs.Stored L e.sha1

/-- A repository at rest: apart from the index and a lock file that was left behind, every file is
an object under the hash of its bytes, and the objects of the entries in the index are there. -/
structure Intact (L : Lib) (fs : FS) : Prop where
  good : fs.Good
  objects : ∀ p b, fs.read p = some b →
    p = indexPath ∨ p = lockPath ∨ p = sha1FileName L (L.sha1 b)
  linked : IsImage L (Linked L fs) (fs.read indexPath)

def WritesWhole (fs : FS) : (o : Op) → o.Res → Prop
  | .write (.repo k) buf, (r : Int) => fs.dir lockPath ≠ some k → r = buf.length
  | _, _ => True

/-- Any answer of the repository, but no object is written in part. -/
def Whole (fs : FS) (o : Op) (r : o.Res) (fs' : FS) : Prop :=
  fs.step o r = some fs' ∧ WritesWhole fs o r

inductive Command where
  | updateCache (argv : List CStr)
  | commit (argv : List CStr) (w : Surroundings)

def Command.program (L : Lib) : Command → Proc Unit
  | .updateCache argv => do
    let _ ← SelfGit.updateCache L argv
    return ()
  | .commit argv w => SelfGit.commit L argv w

/-- The repository, and what is left of the command that is running. -/
abbrev Desk := FS × Option (Proc Unit)

/-- One command after the other, operation by operation. -/
inductive Turn (L : Lib) : Desk → Desk → Prop
  | start (cmd : Command) : Turn L (fs, none) (fs, some (cmd.program L))
  | act (h : Whole fs o r fs') : Turn L (fs, some (.call o k)) (fs', some (k r))
  | done : Turn L (fs, some (.ret a)) (fs, none)
  | stopped : Turn L (fs, some (.halt e)) (fs, none)

/-- Later in a sequence of commands. -/
abbrev Later (L : Lib) : Desk → Desk → Prop := Relation.ReflTransGen (Turn L)

/-- What holds between the repository and the books of the one process that is at work. -/
structure AtWork (L : Lib) (first : Option (List Byte)) (fs : FS) (g : View) : Prop where
  locked : Locked first fs fun _ : Unit => g
  tracked : Tracked fs g
  lib : g.lib = L
  objects : ∀ p k, fs.dir p = some k → p = indexPath ∨ p = lockPath ∨ g.object = some (k, p) ∨
    p = sha1FileName L (L.sha1 (fs.data k))
  pending : ∀ k p, g.object = some (k, p) → fs.data k = []
  known : ∀ s, sha1FileName L s ∈ g.objects → fs.Stored L s
  linked : IsImage L (Linked L fs) (fs.read indexPath)

/-- A file that is neither of the two, with its content, and not about to be written. -/
structure Settled (p : Path) (k : Nat) (b : List Byte) (fs : FS) (g : View) : Prop where
  dir : fs.dir p = some k
  data : fs.data k = b
  settled : g.object ≠ some (k, p)

section Moves
variable {L : Lib} {fs fs' : FS} {g g' : View} {cond : FS → View → Prop}
  {ok : (o : Op) → o.Res → Prop}

theorem FS.create_dir_ne (hq : fs.dir p = none) (hp : fs.dir q = some k) :
    (fs.create p).dir q = some k := by
  rw [FS.create_dir, if_neg]
  · exact hp
  · rintro rfl
    rw [hq] at hp
    cases hp

theorem Move.keeps_dir (hm : Move cond ok fs g fs' g') (hi : p ≠ indexPath) (hl : p ≠ lockPath)
    (hp : fs.dir p = some k) : fs'.dir p = some k := by
  cases hm with
  | locked hc hl' hs hd => exact FS.create_dir_ne hd hp
  | made ho hq hd => exact FS.create_dir_ne hd hp
  | installed hl' hs hc he hw hd =>
    rw [FS.install_dir, if_neg hl, if_neg hi]
    exact hp
  | released hl' =>
    rw [FS.unlock_dir, if_neg hl]
    exact hp
  | _ => exact hp

theorem Move.keeps_data (hm : Move cond ok fs g fs' g') (hg : fs.Good) (hh : Held fs g)
    (hl : p ≠ lockPath) (h : Settled p k b fs g) : fs'.data k = b := by
  cases hm with
  | locked hc hl' hs hd => exact (hg.create_data h.dir).trans h.data
  | made ho hq hd => exact (hg.create_data h.dir).trans h.data
  | stored ho hn =>
    refine (FS.append_data_of_ne ?_ _).trans h.data
    rintro rfl
    obtain ⟨hown, -⟩ := hh.object _ _ ho
    rw [(hown p).1 h.dir] at h
    exact h.settled ho
  | filled ho hl' =>
    refine (FS.append_data_of_ne ?_ _).trans h.data
    rintro rfl
    exact hl (((hh.lock _ hl').1 p).1 h.dir)
  | _ => exact h.data

theorem Settled.move (h : Settled p k b fs g) (hg : fs.Good) (hh : Held fs g)
    (hi : p ≠ indexPath) (hl : p ≠ lockPath) (hm : Move cond ok fs g fs' g') :
    Settled p k b fs' g' := by
  refine ⟨hm.keeps_dir hi hl h.dir, hm.keeps_data hg hh hl h, ?_⟩
  cases hm with
  | made ho hq hd =>
    intro he
    cases he
    rw [h.dir] at hd
    cases hd
  | stored ho hn =>
    intro he
    cases he
  | _ => exact h.settled

theorem FS.Stored.move (hm : Move cond ok fs g fs' g') (h : fs.Stored L s) : fs'.Stored L s := by
  obtain ⟨k, hk⟩ := Option.ne_none_iff_exists'.1 h
  rw [FS.Stored, hm.keeps_dir (sha1FileName_ne_index L s) (sha1FileName_ne_lock L s) hk]
  exact Option.some_ne_none k

theorem Linked.trim (h : Linked L fs es) : Linked L fs (es.map CacheEntry.trim) := by
  intro e he
  obtain ⟨e', he', rfl⟩ := List.mem_map.1 he
  exact h e' he'

theorem IsImage.mono {P P' : List CacheEntry → Prop} (h : IsImage L P s)
    (hP : ∀ es, P es → P' es) : IsImage L P' s := by
  cases s with
  | none => trivial
  | some b =>
    obtain ⟨es, hn, hb, hes⟩ := h
    exact ⟨es, hn, hb, hP es hes⟩

theorem Edits.linked (h : Edits L ok objects c ps c')
    (hobj : ∀ s, sha1FileName L s ∈ objects → fs.Stored L s) (hc : c.Holds es)
    (hl : Linked L fs es) :
    ∃ es', c'.Holds es' ∧ Linked L fs es' := by
  refine h.preserves ?_ ?_ hc hl
  · intro es es' p fd st s _ _ hs hadd hl e he
    rcases hadd.mem he with rfl | he
    · exact hobj _ hs
    · exact hl e he
  · intro c es es' p _ _ _ hrem hl e he
    exact hl e (hrem.mem he)

theorem View.opened_object (g : View) : (g.opened p r).object = g.object := by
  rw [View.opened.eq_def]
  split
  · split <;> rfl
  · split <;> rfl
  · rfl

theorem View.statted_object (g : View) : (g.statted fd r).object = g.object := by
  rw [View.statted.eq_def]
  split
  · split <;> rfl
  · rfl

theorem View.mapped_object (g : View) : (g.mapped fd r).object = g.object := by
  rw [View.mapped.eq_def]
  split
  · split <;> rfl
  · rfl

theorem View.renamed_object (g : View) : (g.renamed r).object = g.object := by
  rw [View.renamed]
  split <;> rfl

theorem View.unlinked_object (g : View) : (g.unlinked r).object = g.object := by
  rw [View.unlinked]
  split <;> rfl

theorem View.accessed_object (g : View) : (g.accessed p r).object = g.object := by
  rw [View.accessed]
  split <;> rfl

theorem View.created_object (h : g.object ≠ none) : (g.created p r).object ≠ none := by
  rw [View.created.eq_def]
  split
  · split
    · exact h
    · exact Option.some_ne_none _
  · split <;> exact h
  · exact h

theorem Whole.stores {o : Op} {r : o.Res} (h : Whole fs o r fs') (hh : Held fs g)
    (ha : (terms ok).allows g o) (ho : g.object = some (k, p))
    (hn : (g.next o r).object = none) :
    ∃ buf, p = sha1FileName g.lib (g.lib.sha1 buf) ∧ fs' = fs.append k buf := by
  have hsome : g.object ≠ none := ho ▸ Option.some_ne_none _
  cases o with
  | write fd buf =>
    obtain ⟨-, i, rfl, ⟨q, hq, rfl⟩ | ⟨hnone, -⟩⟩ := ha
    · rw [ho, Option.some.injEq, Prod.mk.injEq] at hq
      obtain ⟨rfl, rfl⟩ := hq
      obtain ⟨hown, hlock, -⟩ := hh.object _ _ ho
      have hr : r = (buf.length : Int) := h.2 fun hd => hlock ((hown lockPath).1 hd).symm
      have hfs := FS.written_repo h.1
      rw [hr, Int.toNat_natCast, List.take_length] at hfs
      exact ⟨buf, rfl, hfs⟩
    · rw [ho] at hnone
      cases hnone
  | openExcl q => exact absurd hn (View.created_object hsome)
  | openRead q => exact absurd (g.opened_object.symm.trans hn) hsome
  | fstat fd => exact absurd (g.statted_object.symm.trans hn) hsome
  | mmap fd len => exact absurd (g.mapped_object.symm.trans hn) hsome
  | rename src dst => exact absurd (g.renamed_object.symm.trans hn) hsome
  | unlink q => exact absurd (g.unlinked_object.symm.trans hn) hsome
  | access q => exact absurd (g.accessed_object.symm.trans hn) hsome
  | _ => exact absurd hn hsome

theorem AtWork.move_objects (h : AtWork L first fs g) (hm : Move cond ok fs g fs' g')
    (hw : ∀ k p, g.object = some (k, p) → g'.object = none →
      ∃ buf, p = sha1FileName g.lib (g.lib.sha1 buf) ∧ fs' = fs.append k buf)
    (hq : fs'.dir q = some k) : q = indexPath ∨ q = lockPath ∨ g'.object = some (k, q) ∨
      q = sha1FileName L (L.sha1 (fs'.data k)) := by
  have hg := h.locked.good
  have hh := h.locked.held ()
  -- the files that were there, with their content
  have hold : ∀ fs'' : FS, fs.dir q = some k → fs''.data k = fs.data k → q = indexPath ∨
      q = lockPath ∨ g.object = some (k, q) ∨ q = sha1FileName L (L.sha1 (fs''.data k)) := by
    intro fs'' hd hdata
    rw [hdata]
    exact h.objects q k hd
  cases hm with
  | locked hc hl hs hd =>
    rw [FS.create_dir] at hq
    split at hq
    · rename_i hlock
      exact .inr (.inl hlock)
    · exact hold _ hq (hg.create_data hq)
  | made ho hp hd =>
    rw [FS.create_dir] at hq
    split at hq
    · rename_i hqp
      cases hq
      exact .inr (.inr (.inl (by rw [hqp])))
    · rcases hold _ hq (hg.create_data hq) with h' | h' | h' | h'
      · exact .inl h'
      · exact .inr (.inl h')
      · rw [ho] at h'
        cases h'
      · exact .inr (.inr (.inr h'))
  | @stored j buf n ho hn =>
    obtain ⟨whole, hp, hfs⟩ := hw _ _ ho rfl
    obtain ⟨hown, -⟩ := hh.object _ _ ho
    rw [hfs] at hq ⊢
    by_cases hkj : k = j
    · subst hkj
      refine .inr (.inr (.inr ?_))
      rw [FS.append_data_self, h.pending _ _ ho, List.nil_append, (hown q).1 hq, hp, h.lib]
    · rcases hold _ hq (FS.append_data_of_ne hkj _) with h' | h' | h' | h'
      · exact .inl h'
      · exact .inr (.inl h')
      · rw [ho, Option.some.injEq, Prod.mk.injEq] at h'
        exact absurd h'.1.symm hkj
      · exact .inr (.inr (.inr h'))
  | @filled j buf ho hl =>
    by_cases hkj : k = j
    · subst hkj
      exact .inr (.inl (((hh.lock _ hl).1 q).1 hq))
    · exact hold _ hq (FS.append_data_of_ne hkj _)
  | installed hl hs hc he hw' hd =>
    rw [FS.install_dir] at hq
    split at hq
    · cases hq
    · split at hq
      · rename_i hindex
        exact .inl hindex
      · exact hold _ hq rfl
  | released hl =>
    rw [FS.unlock_dir] at hq
    split at hq
    · cases hq
    · exact hold _ hq rfl
  | _ => exact h.objects q k hq

theorem AtWork.move_pending (h : AtWork L first fs g) (hm : Move cond ok fs g fs' g')
    (ho : g'.object = some (k, p)) : fs'.data k = [] := by
  have hg := h.locked.good
  have hh := h.locked.held ()
  cases hm with
  | locked hc hl hs hd => exact (hg.create_data (hh.object _ _ ho).1.dir).trans (h.pending _ _ ho)
  | made ho' hp hd =>
    cases ho
    exact Function.update_self ..
  | stored ho' hn => cases ho
  | filled ho' hl =>
    rw [show g.object = some (k, p) from ho] at ho'
    cases ho'
  | _ => exact h.pending _ _ ho

theorem AtWork.move_known (h : AtWork L first fs g) (hm : Move cond ok fs g fs' g')
    (hs : sha1FileName L s ∈ g'.objects) : fs'.Stored L s := by
  have hold : sha1FileName L s ∈ g.objects → fs'.Stored L s := fun hs => (h.known s hs).move hm
  cases hm with
  | found hd =>
    rcases List.mem_cons.1 hs with rfl | hs
    · rw [FS.Stored, hd]
      exact Option.some_ne_none _
    · exact h.known s hs
  | made ho hp hd =>
    rcases List.mem_cons.1 hs with hsp | hs
    · rw [FS.Stored, FS.create_dir, if_pos hsp]
      exact Option.some_ne_none _
    · exact hold hs
  | _ => exact hold hs

theorem AtWork.move_linked (h : AtWork L first fs g) (hi : g.installed = none)
    (hm : Move cond ok fs g fs' g') : IsImage L (Linked L fs') (fs'.read indexPath) := by
  have hmono : ∀ es, Linked L fs es → Linked L fs' es := fun es hes e he => (hes e he).move hm
  rcases hm.index h.locked.good (h.locked.held ()) with ⟨hsame, -⟩ | hin
  · rw [hsame.read]
    exact h.linked.mono hmono
  · obtain ⟨s, c, c', hseen, hc, hed, himage⟩ := hin.edits
    rw [h.lib] at hc hed himage
    have hlinked : IsImage L (Linked L fs) s := h.tracked.seen s hseen hi ▸ h.linked
    obtain ⟨es, hes, hl⟩ := hlinked.loaded ⟨fun _ he => (by cases he), fun _ hl => hl.trim⟩ hc
    obtain ⟨es', hes', hl'⟩ := hed.linked h.known hes hl
    rw [hes'.image_eq, Option.some.injEq] at himage
    rw [hin.index]
    exact ⟨es', hes'.length_lt, himage.symm, hmono es' hl'⟩

theorem AtWork.move (h : AtWork L first fs g) (hi : g.installed = none)
    (hm : Move cond ok fs g fs' g')
    (hw : ∀ k p, g.object = some (k, p) → g'.object = none →
      ∃ buf, p = sha1FileName g.lib (g.lib.sha1 buf) ∧ fs' = fs.append k buf) :
    AtWork L first fs' g' where
  locked := h.locked.move_alone hi hm
  tracked := h.tracked.move h.locked.good (h.locked.held ()) hm
  lib := hm.constant.1.trans h.lib
  objects _ _ hq := h.move_objects hm hw hq
  pending _ _ ho := h.move_pending hm ho
  known _ hs := h.move_known hm hs
  linked := h.move_linked hi hm

/-- One operation of the process at work. -/
theorem AtWork.step {o : Op} {r : o.Res} (h : AtWork L first fs g)
    (ha : (terms anyAnswer).allows g o) (hr : Whole fs o r fs') :
    (terms anyAnswer).answers g o r ∧
      Move (fun _ _ => True) anyAnswer fs g fs' (g.next o r) ∧ AtWork L first fs' (g.next o r) := by
  have hm : Move (fun _ _ => True) anyAnswer fs g fs' (g.next o r) :=
    Move.of_step ha trivial onLock_any hr.1
  refine ⟨h.locked.answers (i := ()) ha hr.1 trivial, hm, h.move ha.1 hm ?_⟩
  intro k p ho hn
  exact hr.stores (h.locked.held ()) ha ho hn

theorem Intact.start (h : Intact L fs) (words : List CStr) :
    AtWork L (fs.read indexPath) fs (View.init L words) where
  locked := Locked.start h.good (fun _ => L) fun _ => words
  tracked := ⟨fun _ _ hn => (by cases hn), fun _ _ _ hn => (by cases hn),
    fun _ hn => (by cases hn)⟩
  lib := rfl
  objects p k hd := by
    have hread : fs.read p = some (fs.data k) := by rw [FS.read, hd, Option.map_some]
    exact (h.objects p _ hread).imp_right fun h' => h'.imp_right .inr
  pending _ _ ho := by cases ho
  known _ hs := by cases hs
  linked := h.linked

theorem AtWork.rest (h : AtWork L first fs g) (ho : g.object = none) : Intact L fs where
  good := h.locked.good
  objects p b hread := by
    rw [FS.read, Option.map_eq_some_iff] at hread
    obtain ⟨k, hd, rfl⟩ := hread
    rcases h.objects p k hd with h' | h' | h' | h'
    · exact .inl h'
    · exact .inr (.inl h')
    · rw [ho] at h'
      cases h'
    · exact .inr (.inr h')
  linked := h.linked

end Moves

theorem Command.wp_program (L : Lib) (cmd : Command) : ∃ words, (cmd.program L).wp
    (terms anyAnswer) (fun _ g => g.object = none) (View.init L words) := by
  cases cmd with
  | updateCache argv =>
    refine ⟨argv.drop 1, ?_⟩
    rw [Command.program, Prog.wp_bind]
    refine Prog.wp_mono (wp_updateCache_closed L argv) ?_
    intro x g h
    cases x with
    | ok a => exact Prog.wp_pure.2 h.2
    | error e => exact h.2
  | commit argv w => exact ⟨[], wp_commit L argv w⟩

/-- A property that the operations of a process at work keep, and that outlasts the process. -/
structure Steady (L : Lib) (P : FS → View → Prop) : Prop where
  move : ∀ fs g fs' g', fs.Good → Held fs g →
    Move (fun _ _ => True) anyAnswer fs g fs' g' → P fs g → P fs' g'
  rest : ∀ fs g words, g.object = none → P fs g → P fs (View.init L words)

/-- The repository is intact, or a process is at work on it; and the property holds. -/
def OnDesk (L : Lib) (P : FS → View → Prop) : Desk → Prop
  | (fs, none) => Intact L fs ∧ ∀ words, P fs (View.init L words)
  | (fs, some p) => ∃ first g, AtWork L first fs g ∧
      p.wp (terms anyAnswer) (fun _ g => g.object = none) g ∧ P fs g

section Desks
variable {L : Lib} {P : FS → View → Prop} {x y : Desk} {fs fs' : FS}

theorem Turn.onDesk (hP : Steady L P) (h : Turn L x y) (hx : OnDesk L P x) : OnDesk L P y := by
  cases h with
  | start cmd =>
    obtain ⟨words, hwp⟩ := cmd.wp_program L
    exact ⟨_, _, hx.1.start words, hwp, hx.2 words⟩
  | @act fs o r fs' k hr =>
    obtain ⟨first, g, hwork, hwp, hp⟩ := hx
    obtain ⟨ha, hk⟩ := Prog.wp_call.1 hwp
    obtain ⟨hans, hm, hwork'⟩ := hwork.step ha hr
    exact ⟨first, _, hwork', hk r hans,
      hP.move _ _ _ _ hwork.locked.good (hwork.locked.held ()) hm hp⟩
  | done =>
    obtain ⟨first, g, hwork, hwp, hp⟩ := hx
    exact ⟨hwork.rest (Prog.wp_ret.1 hwp), fun words => hP.rest _ _ _ (Prog.wp_ret.1 hwp) hp⟩
  | stopped =>
    obtain ⟨first, g, hwork, hwp, hp⟩ := hx
    exact ⟨hwork.rest (Prog.wp_halt.1 hwp), fun words => hP.rest _ _ _ (Prog.wp_halt.1 hwp) hp⟩

theorem Later.onDesk (hP : Steady L P) (h : Later L x y) (hx : OnDesk L P x) : OnDesk L P y := by
  induction h with
  | refl => exact hx
  | tail _ hturn ih => exact hturn.onDesk hP ih

theorem steady_true (L : Lib) : Steady L fun _ _ => True :=
  ⟨fun _ _ _ _ _ _ _ _ => trivial, fun _ _ _ _ _ => trivial⟩

theorem steady_settled (L : Lib) (hi : q ≠ indexPath) (hl : q ≠ lockPath) :
    Steady L (Settled q k b) :=
  ⟨fun _ _ _ _ hg hh hm h => h.move hg hh hi hl hm,
    fun _ _ _ _ h => ⟨h.dir, h.data, fun he => by cases he⟩⟩

theorem steady_dir (L : Lib) (hi : q ≠ indexPath) (hl : q ≠ lockPath) :
    Steady L fun fs _ => fs.dir q = some k :=
  ⟨fun _ _ _ _ _ _ hm h => hm.keeps_dir hi hl h, fun _ _ _ _ h => h⟩

theorem OnDesk.imp {P' : FS → View → Prop} (hx : OnDesk L P (fs, p))
    (himp : ∀ g, (∀ k q, g.object = some (k, q) → p ≠ none ∧ fs.data k = []) → P fs g → P' fs g) :
    OnDesk L P' (fs, p) := by
  cases p with
  | none => exact ⟨hx.1, fun words => himp _ (fun _ _ ho => by cases ho) (hx.2 words)⟩
  | some p =>
    obtain ⟨first, g, hwork, hwp, hp⟩ := hx
    exact ⟨first, g, hwork, hwp,
      himp g (fun k q ho => ⟨Option.some_ne_none _, hwork.pending k q ho⟩) hp⟩

theorem OnDesk.holds (hx : OnDesk L P (fs, p)) : ∃ g, P fs g := by
  cases p with
  | none => exact ⟨_, hx.2 []⟩
  | some p =>
    obtain ⟨first, g, -, -, hp⟩ := hx
    exact ⟨g, hp⟩

theorem OnDesk.linked (hx : OnDesk L P (fs, p)) : IsImage L (Linked L fs) (fs.read indexPath) := by
  cases p with
  | none => exact hx.1.linked
  | some p =>
    obtain ⟨first, g, hwork, -⟩ := hx
    exact hwork.linked

theorem OnDesk.object_kept (hx : OnDesk L (fun _ _ => True) (fs, p))
    (h : Later L (fs, p) (fs', p')) (hd : fs.dir (sha1FileName L s) = some k) :
    fs'.dir (sha1FileName L s) = some k ∧
      (p = none ∨ fs.data k ≠ [] → fs'.data k = fs.data k) := by
  have hi := sha1FileName_ne_index L s
  have hl := sha1FileName_ne_lock L s
  constructor
  · obtain ⟨-, hdir⟩ := (h.onDesk (steady_dir L hi hl) (hx.imp fun _ _ _ => hd)).holds
    exact hdir
  · intro hw
    have hstart : OnDesk L (Settled (sha1FileName L s) k (fs.data k)) (fs, p) := by
      refine hx.imp fun g hpend _ => ⟨hd, rfl, ?_⟩
      intro ho
      obtain ⟨hsome, hempty⟩ := hpend k _ ho
      exact hw.elim hsome fun hne => hne hempty
    obtain ⟨g, hset⟩ := (h.onDesk (steady_settled L hi hl) hstart).holds
    exact hset.data

theorem Linked.later (hx : OnDesk L (fun _ _ => True) (fs, p)) (h : Later L (fs, p) (fs', p'))
    (hes : Linked L fs es) : Linked L fs' es := by
  intro e he
  obtain ⟨k, hk⟩ := Option.ne_none_iff_exists'.1 (hes e he)
  rw [FS.Stored, (hx.object_kept h hk).1]
  exact Option.some_ne_none k

/-- Between any commands the repository is intact, no object is taken away or changed, and every
tree lists objects that are there from then on. -/
theorem store_integrity (h0 : Intact L fs₀) (h : Later L (fs₀, none) (fs, p)) :
    (p = none → Intact L fs) ∧ IsImage L (Linked L fs) (fs.read indexPath) ∧
    (∀ fs' p', Later L (fs, p) (fs', p') → ∀ s k, fs.dir (sha1FileName L s) = some k →
      fs'.dir (sha1FileName L s) = some k ∧
        (p = none ∨ fs.data k ≠ [] → fs'.data k = fs.data k)) ∧
    ∀ buf len fs₁, Prog.Runs Whole fs (treeReady L) (.ok (buf, len)) fs₁ →
      ∃ es, handedTree es = .ok (buf, len) ∧
        ∀ fs' p', Later L (fs, p) (fs', p') → Linked L fs' es := by
  have hx : OnDesk L (fun _ _ => True) (fs, p) :=
    h.onDesk (steady_true L) ⟨h0, fun _ => trivial⟩
  refine ⟨?_, hx.linked, fun fs' p' hlater s k hd => hx.object_kept hlater hd, ?_⟩
  · rintro rfl
    exact hx.1
  · intro buf len fs₁ hrun
    have hany : RunsTo anyAnswer fs (treeReady L) (.ok (buf, len)) fs₁ :=
      hrun.mono fun _ _ _ _ hr => ⟨hr.1, trivial⟩
    obtain ⟨rfl, es, htree⟩ := treeReady_ok hany
    exact ⟨es, htree.handed, fun fs' p' hlater => Linked.later hx hlater htree.objects⟩

end Desks

theorem empty_intact (L : Lib) : Intact L FS.empty :=
  ⟨FS.empty_good, fun _ _ h => (by cases h), trivial⟩

theorem Later.run {p : Proc Unit} {fs fs' : FS} (h : Prog.Runs Whole fs p x fs') :
    Later L (fs, some p) (fs', none) := by
  induction p generalizing fs with
  | ret a =>
    obtain ⟨-, rfl⟩ := Prog.runs_ret.1 h
    exact .single .done
  | halt e =>
    obtain ⟨-, rfl⟩ := Prog.runs_halt.1 h
    exact .single .stopped
  | call o k ih =>
    obtain ⟨r, fs₁, hr, h⟩ := Prog.runs_call.1 h
    exact .head (.act hr) (ih r h)

theorem Later.command {fs fs' : FS} (cmd : Command)
    (h : Prog.Runs Whole fs (cmd.program L) x fs') : Later L (fs, none) (fs', none) :=
  .head (.start cmd) (Later.run h)

theorem serve_whole (files : Files) (fs : FS) (o : Op) (fs' : FS)
    (h : fs.step o (FS.serve files fs o) = some fs') : Whole fs o (FS.serve files fs o) fs' := by
  refine ⟨h, ?_⟩
  cases o with
  | write fd buf =>
    cases fd with
    | repo k => exact fun _ => rfl
    | work n => trivial
  | _ => trivial

/-- The first file of a fresh repository is added and committed. -/
theorem store_integrity_two : ∃ fs₁ fs, Later storedLib (FS.empty, none) (fs₁, none) ∧
    Later storedLib (fs₁, none) (fs, none) ∧ Intact storedLib fs ∧
    fs.read indexPath = some (cacheImage storedLib [sampleEntry "a" 120]) := by
  have hrun : (Prog.exec (FS.serve [(str "a", str "x")]) FS.step 20 FS.empty
      ((Command.updateCache [cstr "git", cstr "a"]).program storedLib)).bind (fun r =>
        (Prog.exec (FS.serve []) FS.step 20 r.2
          ((Command.commit [cstr "git", cstr "--commit"] someone).program storedLib)).map
            fun r' => r'.2.read indexPath) =
      some (some (cacheImage storedLib [sampleEntry "a" 120])) := by
    decide +kernel
  rw [Option.bind_eq_some_iff] at hrun
  obtain ⟨⟨x, fs₁⟩, hadd, hrun⟩ := hrun
  rw [Option.map_eq_some_iff] at hrun
  obtain ⟨⟨y, fs⟩, hcommit, hread⟩ := hrun
  have hfirst := Later.command _ (Prog.exec_runs (serve_whole _) hadd)
  have hsecond := Later.command _ (Prog.exec_runs (serve_whole _) hcommit)
  exact ⟨fs₁, fs, hfirst, hsecond,
    (store_integrity (empty_intact storedLib) (hfirst.trans hsecond)).1 rfl, hread⟩

end SelfGit
