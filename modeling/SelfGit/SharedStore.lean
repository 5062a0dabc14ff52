import SelfGit.Versions

namespace SelfGit
open Foundation
set_option autoImplicit true

/-- Of the files of a store while processes are at work on it, each is an object under the hash of
its bytes, or the empty file of one process that has not written to it yet. -/
structure Stocked (L : Lib) (fs : FS) (v : Pid → View) : Prop where
  objects : ∀ p k, fs.dir p = some k → p = indexPath ∨ p = lockPath ∨
    (∃ i, (v i).object = some (k, p)) ∨ p = sha1FileName L (L.sha1 (fs.data k))
  pending : ∀ i k p, (v i).object = some (k, p) → fs.data k = []
  lone : ∀ i j k p q, (v i).object = some (k, p) → (v j).object = some (k, q) → i = j

def GitOp.whole (fs : FS) : (o : GitOp) → o.Res → Prop
  | .console (.sys o), r => WritesWhole fs o r
  | _, _ => True

def gitWhole (shell : List Byte → FS → FS → Prop) (c : GitMachine Pid) (i : Pid) (o : GitOp)
    (r : o.Res) (fs : FS) : Prop :=
  gitAnswered shell c i o r fs ∧ o.whole c.shared r

section Moves
variable {Pid : Type} [DecidableEq Pid] {L : Lib} {fs fs' : FS} {v : Pid → View} {g' : View}
  {i : Pid} {cond : FS → View → Prop} {ok : (o : Op) → o.Res → Prop} {first : Option (List Byte)}

theorem Stocked.move_objects (h : Stocked L fs v) (hg : fs.Good) (hh : Held fs (v i))
    (hlib : (v i).lib = L) (hm : Move cond ok fs (v i) fs' g')
    (hw : ∀ k p, (v i).object = some (k, p) → g'.object = none →
      ∃ buf, p = sha1FileName (v i).lib ((v i).lib.sha1 buf) ∧ fs' = fs.append k buf)
    (hq : fs'.dir q = some k) : q = indexPath ∨ q = lockPath ∨
      (∃ j, (Function.update v i g' j).object = some (k, q)) ∨
      q = sha1FileName L (L.sha1 (fs'.data k)) := by
  have hmine : g'.object = some (k, q) →
      ∃ j, (Function.update v i g' j).object = some (k, q) := by
    intro ho
    refine ⟨i, ?_⟩
    rwa [Function.update_self]
  -- the files that were there, with their content
  have hold : ∀ fs'' : FS, fs.dir q = some k → fs''.data k = fs.data k →
      ((v i).object = some (k, q) → g'.object = some (k, q)) → q = indexPath ∨ q = lockPath ∨
      (∃ j, (Function.update v i g' j).object = some (k, q)) ∨
      q = sha1FileName L (L.sha1 (fs''.data k)) := by
    intro fs'' hd hdata hsame
    rw [hdata]
    rcases h.objects q k hd with h' | h' | ⟨j, hj⟩ | h'
    · exact .inl h'
    · exact .inr (.inl h')
    · refine .inr (.inr (.inl ?_))
      by_cases hji : j = i
      · subst hji
        exact hmine (hsame hj)
      · refine ⟨j, ?_⟩
        rwa [Function.update_of_ne hji]
    · exact .inr (.inr (.inr h'))
  cases hm with
  | locked hc hl hs hd =>
    rw [FS.create_dir] at hq
    split at hq
    · rename_i hlock
      exact .inr (.inl hlock)
    · exact hold _ hq (hg.create_data hq) id
  | made ho hp hd =>
    rw [FS.create_dir] at hq
    split at hq
    · rename_i hqp
      cases hq
      exact .inr (.inr (.inl (hmine (by rw [hqp]))))
    · exact hold _ hq (hg.create_data hq) fun h' => by rw [ho] at h'; cases h'
  | @stored j buf n ho hn =>
    obtain ⟨whole, hp, hfs⟩ := hw _ _ ho rfl
    obtain ⟨hown, -⟩ := hh.object _ _ ho
    rw [hfs] at hq ⊢
    by_cases hkj : k = j
    · subst hkj
      refine .inr (.inr (.inr ?_))
      rw [FS.append_data_self, h.pending _ _ _ ho, List.nil_append, (hown q).1 hq, hp, hlib]
    · refine hold _ hq (FS.append_data_of_ne hkj _) fun h' => ?_
      rw [ho, Option.some.injEq, Prod.mk.injEq] at h'
      exact absurd h'.1.symm hkj
  | @filled j buf ho hl =>
    by_cases hkj : k = j
    · subst hkj
      exact .inr (.inl (((hh.lock _ hl).1 q).1 hq))
    · exact hold _ hq (FS.append_data_of_ne hkj _) id
  | installed hl hs hc he hw' hd =>
    rw [FS.install_dir] at hq
    split at hq
    · cases hq
    · split at hq
      · rename_i hindex
        exact .inl hindex
      · exact hold _ hq rfl id
  | released hl =>
    rw [FS.unlock_dir] at hq
    split at hq
    · cases hq
    · exact hold _ hq rfl id
  | _ => exact hold _ hq rfl id

theorem Stocked.move_pending (h : Stocked L fs v) (hl : Locked first fs v)
    (hm : Move cond ok fs (v i) fs' g') (ho : (Function.update v i g' j).object = some (k, p)) :
    fs'.data k = [] := by
  have hg := hl.good
  by_cases hji : j = i
  · subst hji
    rw [Function.update_self] at ho
    have hown := fun ho => ((hl.held j).object k p ho).1.dir
    cases hm with
    | locked hc hl' hs hd => exact (hg.create_data (hown ho)).trans (h.pending _ _ _ ho)
    | made ho' hp hd =>
      cases ho
      exact Function.update_self ..
    | stored ho' hn => cases ho
    | filled ho' hl' =>
      rw [show (v j).object = some (k, p) from ho] at ho'
      cases ho'
    | _ => exact h.pending _ _ _ ho
  · rw [Function.update_of_ne hji] at ho
    obtain ⟨hown, hp, -⟩ := (hl.held j).object k p ho
    refine (hm.keeps_file (hg _ _ hown.dir) (fun hk => ?_) fun q hq => ?_).trans
      (h.pending j k p ho)
    · exact hp (hown.unique ((hl.held i).lock k hk).1)
    · exact hji (h.lone j i k p q ho hq)

theorem Stocked.move_lone (h : Stocked L fs v) (hl : Locked first fs v)
    (hm : Move cond ok fs (v i) fs' g') (ha : (Function.update v i g' a).object = some (k, p))
    (hb : (Function.update v i g' b).object = some (k, q)) : a = b := by
  -- what is new to one process is new to all
  have hnew : ∀ j x y, j ≠ i → (v j).object = some (k, x) → g'.object = some (k, y) → False := by
    intro j x y hj hold ho
    rcases hm.object_new ho with ho' | rfl
    · exact hj (h.lone j i k x y hold ho')
    · exact Nat.lt_irrefl _ (hl.good _ _ ((hl.held j).object _ _ hold).1.dir)
  by_cases hai : a = i
  · by_cases hbi : b = i
    · rw [hai, hbi]
    · subst hai
      rw [Function.update_self] at ha
      rw [Function.update_of_ne hbi] at hb
      exact (hnew b q p hbi hb ha).elim
  · rw [Function.update_of_ne hai] at ha
    by_cases hbi : b = i
    · subst hbi
      rw [Function.update_self] at hb
      exact (hnew a p q hai ha hb).elim
    · rw [Function.update_of_ne hbi] at hb
      exact h.lone a b k p q ha hb

theorem Stocked.move (h : Stocked L fs v) (hl : Locked first fs v) (hlib : (v i).lib = L)
    (hm : Move cond ok fs (v i) fs' g')
    (hw : ∀ k p, (v i).object = some (k, p) → g'.object = none →
      ∃ buf, p = sha1FileName (v i).lib ((v i).lib.sha1 buf) ∧ fs' = fs.append k buf) :
    Stocked L fs' (Function.update v i g') where
  objects _ _ hq := h.move_objects hl.good (hl.held i) hlib hm hw hq
  pending _ _ _ ho := h.move_pending hl hm ho
  lone _ _ _ _ _ ha hb := h.move_lone hl hm ha hb

theorem Stocked.enter (h : Stocked L fs v) (ho : (v i).object = none) (L' : Lib)
    (words : List CStr) : Stocked L fs (Function.update v i (View.init L' words)) := by
  have hsame : ∀ j, (Function.update v i (View.init L' words) j).object = (v j).object :=
    (Function.forall_update_iff v fun j g => g.object = (v j).object).2 ⟨ho.symm, fun _ _ => rfl⟩
  refine ⟨?_, ?_, ?_⟩
  · simp only [hsame]
    exact h.objects
  · simp only [hsame]
    exact h.pending
  · simp only [hsame]
    exact h.lone

end Moves

theorem linked_lineage {W : Lib → List CStr → Prop} (hW : ∀ L' words, W L' words → L' = L) :
    Lineage W anyAnswer fun fs s => IsImage L (Linked L fs) s where
  keep _ _ _ _ _ hm h := h.mono fun _ hes e he => (hes e he).move hm
  next fs L' words objects s c c' b hw hknown h hl he hi := by
    obtain rfl := hW _ _ hw
    obtain ⟨es, hes, hlinked⟩ :=
      h.loaded ⟨fun _ he => (by cases he), fun _ hl => hl.trim⟩ hl
    obtain ⟨es', hes', hlinked'⟩ := he.linked hknown hes hlinked
    rw [hes'.image_eq, Option.some.injEq] at hi
    exact ⟨es', hes'.length_lt, hi.symm, hlinked'⟩

section Processes
variable {Pid : Type} {L : Lib} {E : Pid → Env} {argv : Pid → List CStr}
  {V : FS → Option (List Byte) → Prop} {W : Lib → List CStr → Prop} {fs fs' : FS} {v : Pid → View}
  {c c' : GitMachine Pid} {i : Pid} {shell : List Byte → FS → FS → Prop}

theorem gitWhole_answered (c : GitMachine Pid) (i : Pid) (o : GitOp) (r : o.Res) (fs : FS)
    (h : gitWhole shell c i o r fs) : gitAnswered shell c i o r fs := h.1

theorem Stocked.keeps {ok : (o : Op) → o.Res → Prop} {cond : FS → View → Prop} {g' : View}
    (h : Stocked L fs v) (hl : Locked first fs v) (hm : Move cond ok fs (v i) fs' g')
    (hd : fs.dir (sha1FileName L s) = some k) :
    fs'.dir (sha1FileName L s) = some k ∧ (fs.data k ≠ [] → fs'.data k = fs.data k) := by
  refine ⟨hm.keeps_dir (sha1FileName_ne_index L s) (sha1FileName_ne_lock L s) hd, fun hne => ?_⟩
  refine hm.keeps_file (hl.good _ _ hd) (fun hk => ?_) fun p ho => hne (h.pending i k p ho)
  exact sha1FileName_ne_lock L s ((((hl.held i).lock k hk).1 _).1 hd)

/-- The processes and the one store they share. -/
structure Stocking (L : Lib) (E : Pid → Env) (argv : Pid → List CStr) (c : GitMachine Pid) :
    Prop where
  concert : InConcert (fun fs s => IsImage L (Linked L fs) s ∧ PlainNames s) E argv c
  stocked : Stocked L c.shared (gitBooks E c)

theorem Stocking.start (h0 : Intact L fs) (hplain : PlainNames (fs.read indexPath)) :
    Stocking L E argv (gitRunning E argv fs) where
  concert := .start h0.good ⟨h0.linked, hplain⟩
  stocked := by
    refine ⟨fun p k hd => ?_, fun _ _ _ ho => (by cases ho), fun _ _ _ _ _ ho => (by cases ho)⟩
    have hread : fs.read p = some (fs.data k) := by
      rw [FS.read, show fs.dir p = some k from hd, Option.map_some]
    exact (h0.objects p _ hread).imp_right fun h' => h'.imp_right .inr

theorem stocking_lineage (hL : ∀ i, (E i).lib = L) (hwords : PlainWords (Told E argv)) :
    Lineage (Told E argv) anyAnswer fun fs s => IsImage L (Linked L fs) s ∧ PlainNames s := by
  refine (linked_lineage ?_).and (plain_lineage hwords)
  rintro L' words ⟨i, argv', rfl, -⟩
  exact hL i

theorem linked_calm (hshell : Harmless shell) :
    Calm shell fun fs s => IsImage L (Linked L fs) s ∧ PlainNames s := ⟨hshell, fun _ _ => And.right⟩

variable [DecidableEq Pid]

theorem Stocked.step {lib : Pid → Lib} {o : GitOp} {r : o.Res} (hlib : ∀ i, lib i = L)
    (hcalm : Calm shell V) (h : Stocked L fs v) (hs : Shared V lib fs v)
    (ha : (v i).gitMay W anyAnswer o) (hr : GitOp.Acts shell fs o r fs')
    (hwhole : o.whole fs r) : Stocked L fs' (Function.update v i ((v i).gitNext o r)) := by
  have hquiet : (v i).gitNext o r = v i → fs' = fs →
      Stocked L fs' (Function.update v i ((v i).gitNext o r)) := by
    rintro hn rfl
    rwa [hn, Function.update_eq_self]
  cases o with
  | console o =>
    cases o with
    | sys o =>
      have hheld := hs.locked.held i
      exact h.move hs.locked ((hs.library i).trans (hlib i))
        (Move.of_step ha.1 trivial onLock_any hr) fun k p ho hn =>
          Whole.stores ⟨hr, hwhole⟩ hheld ha.1 ho hn
    | popen cmd => exact hquiet rfl (hs.popen hcalm ha hr)
    | _ => exact hquiet rfl hr
  | enter handler words =>
    obtain rfl : fs' = fs := hr
    cases handler <;> exact h.enter ha.2.1 _ _
  | _ => exact hquiet rfl hr

theorem Stocking.step (hshell : Harmless shell) (hwords : PlainWords (Told E argv))
    (hL : ∀ i, (E i).lib = L) (h : Stocking L E argv c)
    (hs : Config.Step (gitWhole shell) c c') : Stocking L E argv c' := by
  refine ⟨h.concert.step (stocking_lineage hL hwords) (linked_calm hshell)
    (hs.mono gitWhole_answered), ?_⟩
  rcases hs.views_cases (gitTerms (Told E argv) anyAnswer) fun i => View.init (E i).lib [] with
    ⟨hsame, hviews⟩ | ⟨i, o, r, k, hd, hp, hr, hviews⟩
  · rw [hsame, show gitBooks E c' = gitBooks E c from hviews]
    exact h.stocked
  · rw [show gitBooks E c' = Function.update (gitBooks E c) i ((gitBooks E c i).gitNext o r) from
      hviews]
    exact h.stocked.step hL (linked_calm hshell) h.concert.joint (h.concert.allows hp) hr.1 hr.2

theorem Stocking.later (hshell : Harmless shell) (hwords : PlainWords (Told E argv))
    (hL : ∀ i, (E i).lib = L) (h : Stocking L E argv c)
    (hr : Config.Reaches (gitWhole shell) c c') : Stocking L E argv c' := by
  induction hr with
  | refl => exact h
  | tail _ hs ih => exact ih.step hshell hwords hL hs

theorem Stocking.keeps (hshell : Harmless shell) (hwords : PlainWords (Told E argv))
    (hL : ∀ i, (E i).lib = L) (h : Stocking L E argv c)
    (hr : Config.Reaches (gitWhole shell) c c') (hd : c.shared.dir (sha1FileName L s) = some k) :
    c'.shared.dir (sha1FileName L s) = some k ∧
      (c.shared.data k ≠ [] → c'.shared.data k = c.shared.data k) := by
  induction hr with
  | refl => exact ⟨hd, fun _ => rfl⟩
  | tail hbefore hs ih =>
    obtain ⟨hd', hdata⟩ := ih
    have hmid := h.later hshell hwords hL hbefore
    rcases hmid.concert.step_cases (linked_calm hshell) (hs.mono gitWhole_answered) with
      ⟨hsame, -⟩ | ⟨i, o, p, g', -, -, hm, -⟩
    · rw [hsame]
      exact ⟨hd', hdata⟩
    · obtain ⟨hdir, hkeep⟩ := hmid.stocked.keeps hmid.concert.joint.locked hm hd'
      refine ⟨hdir, fun hne => ?_⟩
      rw [hkeep (hdata hne ▸ hne), hdata hne]

/-- Over any interleaving of any processes on one store, as long as no object is written in part and
the shell does no harm, objects stay, and the index and the trees name objects that are there. -/
theorem shared_store_integrity (hshell : Harmless shell) (hwords : PlainWords (Told E argv))
    (h0 : Intact L fs) (hplain : PlainNames (fs.read indexPath)) (hL : ∀ i, (E i).lib = L)
    (hr : Config.Reaches (gitWhole shell) (gitRunning E argv fs) c) :
    (∀ p b, c.shared.read p = some b → p = indexPath ∨ p = lockPath ∨
      p = sha1FileName L (L.sha1 b) ∨
        b = [] ∧ ∃ i k, (gitBooks E c i).object = some (k, p)) ∧
    IsImage L (Linked L c.shared) (c.shared.read indexPath) ∧
    (∀ c', Config.Reaches (gitWhole shell) c c' →
      (∀ s k, c.shared.dir (sha1FileName L s) = some k → c'.shared.dir (sha1FileName L s) = some k ∧
        (c.shared.data k ≠ [] → c'.shared.data k = c.shared.data k)) ∧
      ∀ i es k, c.prog i = .call (.treeOf es) k → Linked L c'.shared es) ∧
    ((∀ i o k, c.prog i ≠ .call o k) → Intact L c.shared) := by
  have h : Stocking L E argv c := (Stocking.start h0 hplain).later hshell hwords hL hr
  have hfiles : ∀ p b, c.shared.read p = some b → p = indexPath ∨ p = lockPath ∨
      p = sha1FileName L (L.sha1 b) ∨ b = [] ∧ ∃ i k, (gitBooks E c i).object = some (k, p) := by
    intro p b hread
    rw [FS.read, Option.map_eq_some_iff] at hread
    obtain ⟨k, hd, rfl⟩ := hread
    rcases h.stocked.objects p k hd with h' | h' | ⟨i, ho⟩ | h'
    · exact .inl h'
    · exact .inr (.inl h')
    · exact .inr (.inr (.inr ⟨h.stocked.pending i k p ho, i, k, ho⟩))
    · exact .inr (.inr (.inl h'))
  refine ⟨hfiles, h.concert.joint.index.1,
    fun c' hlater => ⟨fun s k => h.keeps hshell hwords hL hlater, ?_⟩, ?_⟩
  · intro i es k hp e he
    obtain ⟨-, hobj⟩ := h.concert.allows hp
    rw [h.concert.library, hL] at hobj
    have hstored : c.shared.Stored L e.sha1 := hL i ▸ h.concert.joint.known i e.sha1
      (by rw [hL]; exact hobj e he)
    obtain ⟨j, hj⟩ := Option.ne_none_iff_exists'.1 hstored
    rw [FS.Stored, (h.keeps hshell hwords hL hlater hj).1]
    exact Option.some_ne_none j
  · intro hend
    have hnone : ∀ i, (gitBooks E c i).object = none := by
      intro i
      have hw := h.concert.each i
      cases hp : c.prog i with
      | ret a =>
        rw [hp] at hw
        exact Prog.wp_ret.1 hw
      | halt e =>
        rw [hp] at hw
        exact Prog.wp_halt.1 hw
      | call o k => exact absurd hp (hend i o k)
    refine ⟨h.concert.joint.locked.good, fun p b hread => ?_, h.concert.joint.index.1⟩
    rcases hfiles p b hread with h' | h' | h' | ⟨-, i, k, ho⟩
    · exact .inl h'
    · exact .inr (.inl h')
    · exact .inr (.inr h')
    · rw [hnone] at ho
      cases ho

end Processes

theorem GitOp.serve_whole (files : Files) (fs fs' : FS) (o : GitOp)
    (h : o.step fs (GitOp.serve files fs o) = some fs') : o.whole fs (GitOp.serve files fs o) := by
  cases o with
  | console o =>
    cases o with
    | sys o => exact (SelfGit.serve_whole files fs o fs' h).2
    | _ => trivial
  | _ => trivial

/-- The first file of a fresh repository is added by one process and committed by another. -/
theorem shared_store_integrity_two : ∃ c : GitMachine Bool,
    Config.Reaches (gitWhole freeShell) (gitRunning (fun _ => storedEnv) addAndCommit FS.empty)
      c ∧ (c.past true).length = 15 ∧
    IsImage storedLib (Linked storedLib c.shared) (c.shared.read indexPath) := by
  obtain ⟨c, hc, hn⟩ : ∃ c, Config.drive gitTurn (GitOp.serve [(str "a", str "x")])
      (List.replicate 15 false ++ List.replicate 15 true)
      (gitRunning (fun _ => storedEnv) addAndCommit FS.empty) = some c ∧
      (c.past true).length = 15 := by
    rw [← Option.map_eq_some_iff]
    decide +kernel
  have hr : Config.Reaches (gitWhole freeShell) _ c :=
    Config.drive_reaches (fun _ _ _ _ h => ⟨.of_step (fun _ _ _ _ _ => rfl) h,
      GitOp.serve_whole _ _ _ _ h⟩) (fun _ => rfl) hc
  exact ⟨c, hr, hn, (shared_store_integrity freeShell_harmless addAndCommit_plain
    (empty_intact storedLib) plainNames_none (fun _ => rfl) hr).2.1⟩

end SelfGit
