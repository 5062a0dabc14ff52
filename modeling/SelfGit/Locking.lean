import SelfGit.Moves

namespace SelfGit
open Foundation
set_option autoImplicit true

/-- Of all names, exactly `p` leads to inode `k`. -/
def Owned (fs : FS) (p : Path) (k : Nat) : Prop := ∀ q, fs.dir q = some k ↔ q = p

theorem Owned.dir (h : Owned fs p k) : fs.dir p = some k := (h p).2 rfl

theorem Owned.read (h : Owned fs p k) : fs.read p = some (fs.data k) := by
  rw [FS.read, h.dir, Option.map_some]

theorem Owned.unique (h : Owned fs p k) (h' : Owned fs q k) : p = q := (h' p).1 h.dir

namespace FS
variable {fs : FS}

theorem create_dir (fs : FS) (p q : Path) :
    (fs.create p).dir q = if q = p then some fs.next else fs.dir q := by
  simp only [FS.create, Function.update_apply]

theorem Good.create (h : fs.Good) (p : Path) : (fs.create p).Good := by
  intro q i hq
  rw [create_dir] at hq
  change i < fs.next + 1
  split at hq
  · cases hq
    omega
  · have := h q i hq
    omega

theorem Good.create_data (h : fs.Good) (hq : fs.dir q = some k) :
    (fs.create p).data k = fs.data k := by
  have := h q k hq
  exact Function.update_of_ne (by omega) _ _

theorem Good.create_owned (h : fs.Good) (p : Path) : Owned (fs.create p) p fs.next := by
  intro q
  rw [create_dir]
  split
  · simp [*]
  · rename_i hq
    constructor
    · intro hn
      have := h q _ hn
      omega
    · intro hp
      exact absurd hp hq

theorem append_data_of_ne (h : k ≠ j) (b : List Byte) : (fs.append j b).data k = fs.data k :=
  Function.update_of_ne h _ _

theorem append_data_self (b : List Byte) : (fs.append j b).data j = fs.data j ++ b :=
  Function.update_self ..

theorem install_dir (fs : FS) (k : Nat) (q : Path) :
    (fs.install k).dir q =
      if q = lockPath then none else if q = indexPath then some k else fs.dir q := by
  simp only [FS.install, Function.update_apply]

theorem unlock_dir (fs : FS) (q : Path) :
    fs.unlock.dir q = if q = lockPath then none else fs.dir q := by
  simp only [FS.unlock, Function.update_apply]

theorem read_install_index : (fs.install k).read indexPath = some (fs.data k) := by
  rw [FS.read, install_dir, if_neg index_ne_lock, if_pos rfl]
  rfl

end FS

theorem Owned.create (h : Owned fs p k) (hg : fs.Good) (hp : fs.dir q = none) :
    Owned (fs.create q) p k := by
  have hlt := hg p k h.dir
  intro x
  rw [FS.create_dir]
  split
  · rename_i hx
    subst x
    constructor
    · intro he
      cases he
      omega
    · rintro rfl
      rw [h.dir] at hp
      cases hp
  · exact h x

theorem Owned.install (h : Owned fs p j) (hl : fs.dir lockPath = some k) (hp : p ≠ indexPath)
    (hp' : p ≠ lockPath) : Owned (fs.install k) p j := by
  intro x
  rw [FS.install_dir]
  split
  · simp [*, hp'.symm]
  · split
    · rename_i hx
      constructor
      · intro he
        cases he
        exact absurd ((h _).1 hl).symm hp'
      · rintro rfl
        exact absurd hx hp
    · exact h x

theorem Owned.unlock (h : Owned fs p j) (hp : p ≠ lockPath) : Owned fs.unlock p j := by
  intro x
  rw [FS.unlock_dir]
  split
  · simp [*, hp.symm]
  · exact h x

/-- The lock and the object on a process's books are its own. -/
structure Held (fs : FS) (g : View) : Prop where
  lock : ∀ k, g.lock = some k → Owned fs lockPath k ∧ fs.data k = g.written
  object : ∀ k p, g.object = some (k, p) → Owned fs p k ∧ p ≠ lockPath ∧ p ≠ indexPath

/-- How the index, the lock and the books of the processes fit together. -/
structure Locked (first : Option (List Byte)) (fs : FS) (v : Pid → View) : Prop where
  good : fs.Good
  held : ∀ i, Held fs (v i)
  lone : ∀ i j, (v i).lock ≠ none → (v j).lock ≠ none → i = j
  index : fs.read indexPath = first ∨
    ∃ i b, (v i).installed = some b ∧ fs.read indexPath = some b

theorem Held.create (h : Held fs g) (hg : fs.Good) (hp : fs.dir p = none) :
    Held (fs.create p) g where
  lock k hk := by
    obtain ⟨ho, hd⟩ := h.lock k hk
    exact ⟨ho.create hg hp, (hg.create_data ho.dir).trans hd⟩
  object k q hk := by
    obtain ⟨ho, hq⟩ := h.object k q hk
    exact ⟨ho.create hg hp, hq⟩

theorem Held.append (h : Held fs g) (hk : g.lock ≠ some j) : Held (fs.append j b) g where
  lock k hl := by
    obtain ⟨ho, hd⟩ := h.lock k hl
    have hkj : k ≠ j := by
      rintro rfl
      exact hk hl
    exact ⟨ho, (FS.append_data_of_ne hkj b).trans hd⟩
  object := h.object

theorem Held.install (h : Held fs g) (hn : g.lock = none) (hl : fs.dir lockPath = some k) :
    Held (fs.install k) g where
  lock j hj := by
    rw [hn] at hj
    cases hj
  object j p hj := by
    obtain ⟨ho, hp, hp'⟩ := h.object j p hj
    exact ⟨ho.install hl hp' hp, hp, hp'⟩

theorem Held.unlock (h : Held fs g) (hn : g.lock = none) : Held fs.unlock g where
  lock j hj := by
    rw [hn] at hj
    cases hj
  object j p hj := by
    obtain ⟨ho, hp, hp'⟩ := h.object j p hj
    exact ⟨ho.unlock hp, hp, hp'⟩

/-- The name of the index and the file behind it are as they were. -/
structure SameIndex (fs fs' : FS) : Prop where
  dir : fs'.dir indexPath = fs.dir indexPath
  data : ∀ i, fs.dir indexPath = some i → fs'.data i = fs.data i

theorem SameIndex.read (h : SameIndex fs fs') : fs'.read indexPath = fs.read indexPath := by
  rw [FS.read, FS.read, h.dir]
  cases hd : fs.dir indexPath with
  | none => rfl
  | some i => simp only [Option.map_some, h.data i hd]

theorem SameIndex.create (hg : fs.Good) (hp : p ≠ indexPath) : SameIndex fs (fs.create p) :=
  ⟨by rw [FS.create_dir, if_neg hp.symm], fun _ hi => hg.create_data hi⟩

theorem SameIndex.append (ho : Owned fs p k) (hp : p ≠ indexPath) :
    SameIndex fs (fs.append k b) := by
  refine ⟨rfl, fun i hi => FS.append_data_of_ne ?_ b⟩
  rintro rfl
  exact hp ((ho _).1 hi).symm

theorem SameIndex.unlock : SameIndex fs fs.unlock :=
  ⟨by rw [FS.unlock_dir, if_neg index_ne_lock], fun _ _ => rfl⟩

/-- The step by which a process installs what it has made of the index it saw. -/
structure Installs (ok : (o : Op) → o.Res → Prop) (g : View) (fs' : FS) (g' : View) : Prop where
  held : g.lock ≠ none
  edits : ∃ s c c', g.seen = some s ∧ loaded g.lib s = some c ∧
    Edits g.lib ok g.objects c g.words c' ∧ c'.image g.lib = some g.written
  view : g' = { g with lock := none, installed := some g.written }
  index : fs'.read indexPath = some g.written

theorem Installs.installed (h : Installs ok g fs' g') :
    ∃ b, g'.installed = some b ∧ fs'.read indexPath = some b :=
  ⟨g.written, by rw [h.view], h.index⟩

theorem Move.index {cond : FS → View → Prop} (hm : Move cond ok fs g fs' g') (hg : fs.Good)
    (hh : Held fs g) :
    SameIndex fs fs' ∧ g'.installed = g.installed ∨ Installs ok g fs' g' := by
  cases hm with
  | idle => exact .inl ⟨⟨rfl, fun _ _ => rfl⟩, rfl⟩
  | found hd => exact .inl ⟨⟨rfl, fun _ _ => rfl⟩, rfl⟩
  | absent hs hd => exact .inl ⟨⟨rfl, fun _ _ => rfl⟩, rfl⟩
  | opened hs hd => exact .inl ⟨⟨rfl, fun _ _ => rfl⟩, rfl⟩
  | sized hs hh => exact .inl ⟨⟨rfl, fun _ _ => rfl⟩, rfl⟩
  | read hs hh hz hm => exact .inl ⟨⟨rfl, fun _ _ => rfl⟩, rfl⟩
  | locked hc hl hs hd => exact .inl ⟨.create hg index_ne_lock.symm, rfl⟩
  | made ho hp hd =>
    subst hp
    exact .inl ⟨.create hg (sha1FileName_ne_index _ _), rfl⟩
  | stored ho hn =>
    obtain ⟨hown, -, hpi⟩ := hh.object _ _ ho
    exact .inl ⟨.append hown hpi, rfl⟩
  | filled ho hl => exact .inl ⟨.append (hh.lock _ hl).1 index_ne_lock.symm, rfl⟩
  | installed hl hs hc he hw hd =>
    obtain ⟨k, hk⟩ := Option.ne_none_iff_exists'.1 hl
    obtain ⟨hown, hdat⟩ := hh.lock k hk
    have hkk := Option.some.inj (hown.dir.symm.trans hd)
    refine .inr ⟨hl, ⟨_, _, _, hs, hc, he, hw⟩, rfl, ?_⟩
    rw [FS.read_install_index, ← hkk, hdat]
  | released hl => exact .inl ⟨.unlock, rfl⟩

section Joint
variable {Pid : Type} {v : Pid → View} {i : Pid} {fs fs' : FS} {g' : View}
  {cond : FS → View → Prop}

theorem Locked.others_free (h : Locked first fs v) (hl : (v i).lock ≠ none) (hj : j ≠ i) :
    (v j).lock = none := by
  by_contra hn
  exact hj (h.lone j i hn hl)

theorem Locked.all_free (h : Locked first fs v) (hd : fs.dir lockPath = none) (j : Pid) :
    (v j).lock = none := by
  cases hl : (v j).lock with
  | none => rfl
  | some k =>
    rw [((h.held j).lock k hl).1.dir] at hd
    cases hd

theorem Locked.answers {o : Op} {r : o.Res} (h : Locked first fs v)
    (ha : (terms ok).allows (v i) o) (hs : fs.step o r = some fs') (hok : ok o r) :
    (terms ok).answers (v i) o r := by
  refine ⟨⟨fs, fs', hs⟩, hok, ?_⟩
  cases o with
  | unlink p =>
    obtain ⟨-, rfl, hl⟩ := ha
    obtain ⟨k, hk⟩ := Option.ne_none_iff_exists'.1 hl
    have hd := ((h.held i).lock k hk).1.dir
    cases r with
    | true => rfl
    | false => simp [FS.step, FS.unlinked, hd] at hs
  | _ => trivial

theorem Locked.start (hg : fs.Good) (lib : Pid → Lib) (words : Pid → List CStr) :
    Locked (fs.read indexPath) fs fun i => View.init (lib i) (words i) where
  good := hg
  held _ := ⟨fun _ h => (by cases h), fun _ _ h => (by cases h)⟩
  lone _ _ h := absurd rfl h
  index := .inl rfl

variable [DecidableEq Pid]

theorem Locked.update (h : Locked first fs v) (hi : (v i).installed = none) (hg : fs'.Good)
    (hme : Held fs' g') (hothers : ∀ j, j ≠ i → Held fs' (v j))
    (hlone : g'.lock ≠ none → ∀ j, j ≠ i → (v j).lock = none)
    (hidx : SameIndex fs fs' ∨ ∃ b, g'.installed = some b ∧ fs'.read indexPath = some b) :
    Locked first fs' (Function.update v i g') where
  good := hg
  held j := by
    by_cases hj : j = i
    · subst j
      rw [Function.update_self]
      exact hme
    · rw [Function.update_of_ne hj]
      exact hothers j hj
  lone a b ha hb := by
    by_cases hai : a = i
    · by_cases hbi : b = i
      · rw [hai, hbi]
      · subst hai
        rw [Function.update_self] at ha
        rw [Function.update_of_ne hbi] at hb
        exact absurd (hlone ha b hbi) hb
    · rw [Function.update_of_ne hai] at ha
      by_cases hbi : b = i
      · subst hbi
        rw [Function.update_self] at hb
        exact absurd (hlone hb a hai) ha
      · rw [Function.update_of_ne hbi] at hb
        exact h.lone a b ha hb
  index := by
    rcases hidx with hsame | ⟨b, hb, hr⟩
    · rw [hsame.read]
      refine h.index.imp_right ?_
      rintro ⟨j, b, hj, hr⟩
      have hji : j ≠ i := by
        rintro rfl
        rw [hi] at hj
        cases hj
      exact ⟨j, b, by rw [Function.update_of_ne hji]; exact hj, hr⟩
    · exact .inr ⟨i, b, by rw [Function.update_self]; exact hb, hr⟩

theorem Locked.look (h : Locked first fs v) (hi : (v i).installed = none)
    (hl : g'.lock = (v i).lock) (hw : g'.written = (v i).written)
    (ho : g'.object = (v i).object) : Locked first fs (Function.update v i g') := by
  refine h.update hi h.good ?_ (fun j _ => h.held j) ?_
    (.inl ⟨rfl, fun _ _ => rfl⟩)
  · exact ⟨by rw [hl, hw]; exact (h.held i).lock, by rw [ho]; exact (h.held i).object⟩
  · intro hn j hj
    rw [hl] at hn
    exact h.others_free hn hj

theorem Locked.move (h : Locked first fs v) (hi : (v i).installed = none)
    (hm : Move cond ok fs (v i) fs' g') : Locked first fs' (Function.update v i g') := by
  have hg := h.good
  have hidx := (hm.index hg (h.held i)).imp And.left Installs.installed
  cases hm with
  | idle => exact h.look hi rfl rfl rfl
  | found hd => exact h.look hi rfl rfl rfl
  | absent hs hd => exact h.look hi rfl rfl rfl
  | opened hs hd => exact h.look hi rfl rfl rfl
  | sized hs hh => exact h.look hi rfl rfl rfl
  | read hs hh hz hm => exact h.look hi rfl rfl rfl
  | locked hc hl hs hd =>
    have hframe := fun j => (h.held j).create hg hd
    refine h.update hi (hg.create _) ?_ (fun j _ => hframe j) (fun _ j _ => h.all_free hd j)
      hidx
    refine ⟨?_, (hframe i).object⟩
    intro k hk
    cases hk
    exact ⟨hg.create_owned _, Function.update_self ..⟩
  | made ho hp hd =>
    subst hp
    have hframe := fun j => (h.held j).create hg hd
    refine h.update hi (hg.create _) ?_ (fun j _ => hframe j)
      (fun hn j hj => h.others_free hn hj) hidx
    refine ⟨(hframe i).lock, ?_⟩
    intro k p hk
    cases hk
    exact ⟨hg.create_owned _, sha1FileName_ne_lock _ _, sha1FileName_ne_index _ _⟩
  | @stored k buf n ho hn =>
    obtain ⟨hown, hpl, hpi⟩ := (h.held i).object _ _ ho
    have hframe : ∀ j, Held (fs.append k (buf.take n.toNat)) (v j) := by
      intro j
      refine (h.held j).append ?_
      intro hk
      exact hpl (hown.unique ((h.held j).lock k hk).1)
    refine h.update hi hg ?_ (fun j _ => hframe j) (fun hn j hj => h.others_free hn hj) hidx
    exact ⟨(hframe i).lock, fun _ _ hk => by cases hk⟩
  | @filled k buf ho hl =>
    obtain ⟨hown, hd⟩ := (h.held i).lock k hl
    refine h.update hi hg ?_ ?_ (fun hn j hj => h.others_free hn hj) hidx
    · refine ⟨?_, fun j p hj => ?_⟩
      · intro j hj
        have hjk : k = j := Option.some.inj (hl.symm.trans hj)
        subst j
        exact ⟨hown, by rw [FS.append_data_self, hd]⟩
      · exact (h.held i).object j p hj
    · intro j hj
      refine (h.held j).append ?_
      rw [h.others_free (by rw [hl]; exact Option.some_ne_none k) hj]
      exact (Option.some_ne_none k).symm
  | @installed s c c' k hl hs hc he hw hd =>
    refine h.update hi ?_ ?_ ?_ (fun hn => absurd rfl hn) hidx
    · intro q j hq
      rw [FS.install_dir] at hq
      split at hq
      · cases hq
      · split at hq
        · cases hq
          exact hg _ _ hd
        · exact hg q j hq
    · refine ⟨fun _ hj => (by cases hj), fun j p hj => ?_⟩
      obtain ⟨ho, hp, hp'⟩ := (h.held i).object j p hj
      exact ⟨ho.install hd hp' hp, hp, hp'⟩
    · intro j hj
      exact (h.held j).install (h.others_free hl hj) hd
  | released hl =>
    refine h.update hi ?_ ?_ ?_ (fun hn => absurd rfl hn) hidx
    · intro q j hq
      rw [FS.unlock_dir] at hq
      split at hq
      · cases hq
      · exact hg q j hq
    · refine ⟨fun _ hj => (by cases hj), fun j p hj => ?_⟩
      obtain ⟨ho, hp, hp'⟩ := (h.held i).object j p hj
      exact ⟨ho.unlock hp, hp, hp'⟩
    · intro j hj
      exact (h.held j).unlock (h.others_free hl hj)

theorem Locked.move_alone (h : Locked first fs fun _ : Unit => g) (hi : g.installed = none)
    (hm : Move cond ok fs g fs' g') : Locked first fs' fun _ : Unit => g' := by
  have hmove := h.move (i := ()) hi hm
  have hconst : Function.update (fun _ : Unit => g) () g' = fun _ => g' := by
    funext i
    exact Function.update_self ..
  rwa [hconst] at hmove

/-- One operation of one process, on its terms. -/
theorem Locked.step {o : Op} {r : o.Res} (h : Locked first fs v)
    (ha : (terms ok).allows (v i) o) (hs : fs.step o r = some fs') (hok : ok o r)
    (hc : OnLock cond fs (v i) o r) :
    (terms ok).answers (v i) o r ∧
      Locked first fs' (Function.update v i ((terms ok).next (v i) o r)) :=
  ⟨h.answers ha hs hok, h.move ha.1 (Move.of_step ha hok hc hs)⟩

end Joint

end SelfGit
