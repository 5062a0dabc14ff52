import SelfGit.Processes

namespace SelfGit
open Foundation
set_option autoImplicit true

/-- The index is what the process has found it to be. -/
def Fresh (fs : FS) (g : View) : Prop := g.seen = some (fs.read indexPath)

/-- Whoever holds the lock has seen the index as it is. -/
def Serial (first : Option (List Byte)) (fs : FS) (v : Pid → View) : Prop :=
  Locked first fs v ∧ ∀ i, (v i).lock ≠ none → Fresh fs (v i)

theorem Fresh.same (h : Fresh fs g) (hs : SameIndex fs fs') : Fresh fs' g := by
  rw [Fresh, hs.read]
  exact h

theorem Move.fresh (hm : Move Fresh ok fs g fs' g') (hs : SameIndex fs fs')
    (hg : g.lock ≠ none → Fresh fs g) (hl : g'.lock ≠ none) : Fresh fs' g' := by
  have hread : g.lock ≠ none → g.seen ≠ none := by
    intro h0 hn
    rw [hg h0] at hn
    cases hn
  cases hm with
  | idle => exact hg hl
  | found hd => exact hg hl
  | absent h0 hd => exact absurd h0 (hread hl)
  | opened h0 hd => exact hg hl
  | sized h0 hh => exact hg hl
  | read h0 hh hz hm => exact absurd h0 (hread hl)
  | locked hc hl hs' hd => exact hc.same hs
  | made ho hp hd => exact (hg hl).same hs
  | stored ho hn => exact (hg hl).same hs
  | filled ho hl' => exact (hg hl).same hs
  | installed => exact absurd rfl hl
  | released => exact absurd rfl hl

section Joint
variable {Pid : Type} [DecidableEq Pid] {v : Pid → View} {i : Pid} {fs fs' : FS} {g' : View}
  {first : Option (List Byte)} {ok : (o : Op) → o.Res → Prop}

theorem Serial.move (h : Serial first fs v) (hi : (v i).installed = none)
    (hm : Move Fresh ok fs (v i) fs' g') : Serial first fs' (Function.update v i g') := by
  refine ⟨h.1.move hi hm, fun j hj => ?_⟩
  have hidx := hm.index h.1.good (h.1.held i)
  by_cases hji : j = i
  · subst j
    rw [Function.update_self] at hj ⊢
    rcases hidx with ⟨hs, -⟩ | hin
    · exact hm.fresh hs (h.2 i) hj
    · rw [hin.view] at hj
      exact absurd rfl hj
  · rw [Function.update_of_ne hji] at hj ⊢
    rcases hidx with ⟨hs, -⟩ | hin
    · exact (h.2 j hj).same hs
    · exact absurd (h.1.others_free hin.held hji) hj

end Joint

theorem Move.constant {cond : FS → View → Prop} (hm : Move cond ok fs g fs' g') :
    g'.lib = g.lib ∧ g'.words = g.words := by
  cases hm <;> exact ⟨rfl, rfl⟩

/-- An installation by process `i` keeps `I` and brings `Has i` about, which the others keep. -/
structure Keeps (ok : (o : Op) → o.Res → Prop) (lib : Pid → Lib) (argv : Pid → List CStr)
    (I : Option (List Byte) → Prop) (Has : Pid → Option (List Byte) → Prop) : Prop where
  inv : ∀ i objects s c c' b, I s → loaded (lib i) s = some c →
    Edits (lib i) ok objects c ((argv i).drop 1) c' → c'.image (lib i) = some b → I (some b)
  own : ∀ i objects s c c' b, I s → loaded (lib i) s = some c →
    Edits (lib i) ok objects c ((argv i).drop 1) c' → c'.image (lib i) = some b → Has i (some b)
  keep : ∀ i j objects s c c' b, I s → Has j s → loaded (lib i) s = some c →
    Edits (lib i) ok objects c ((argv i).drop 1) c' → c'.image (lib i) = some b → Has j (some b)

section Rule
variable {Pid : Type} [DecidableEq Pid] {v : Pid → View} {i : Pid} {fs fs' : FS} {g' : View}
  {first : Option (List Byte)} {ok : (o : Op) → o.Res → Prop} {lib : Pid → Lib}
  {argv : Pid → List CStr} {I : Option (List Byte) → Prop}
  {Has : Pid → Option (List Byte) → Prop} {c : Machine Pid}

/-- Serial runs with the two properties of the index. -/
structure Kept (lib : Pid → Lib) (argv : Pid → List CStr) (I : Option (List Byte) → Prop)
    (Has : Pid → Option (List Byte) → Prop) (first : Option (List Byte)) (fs : FS)
    (v : Pid → View) : Prop where
  serial : Serial first fs v
  constant : ∀ i, (v i).lib = lib i ∧ (v i).words = (argv i).drop 1
  inv : I (fs.read indexPath)
  has : ∀ i, (v i).installed ≠ none → Has i (fs.read indexPath)

theorem Kept.move (hk : Keeps ok lib argv I Has) (h : Kept lib argv I Has first fs v)
    (hi : (v i).installed = none) (hm : Move Fresh ok fs (v i) fs' g') :
    Kept lib argv I Has first fs' (Function.update v i g') := by
  have hconst : ∀ j, (Function.update v i g' j).lib = lib j ∧
      (Function.update v i g' j).words = (argv j).drop 1 := by
    intro j
    by_cases hji : j = i
    · subst j
      rw [Function.update_self, hm.constant.1, hm.constant.2]
      exact h.constant i
    · rw [Function.update_of_ne hji]
      exact h.constant j
  rcases hm.index h.serial.1.good (h.serial.1.held i) with ⟨hs, hsame⟩ | hin
  · refine ⟨h.serial.move hi hm, hconst, hs.read ▸ h.inv, fun j hj => ?_⟩
    rw [hs.read]
    by_cases hji : j = i
    · subst j
      rw [Function.update_self, hsame] at hj
      exact absurd hi hj
    · rw [Function.update_of_ne hji] at hj
      exact h.has j hj
  · obtain ⟨s, c, c', hseen, hc, he, hw⟩ := hin.edits
    rw [h.serial.2 i hin.held, Option.some.injEq] at hseen
    subst s
    rw [(h.constant i).1] at hc he hw
    rw [(h.constant i).2] at he
    refine ⟨h.serial.move hi hm, hconst, ?_, fun j hj => ?_⟩
    · rw [hin.index]
      exact hk.inv i _ _ c c' _ h.inv hc he hw
    · rw [hin.index]
      by_cases hji : j = i
      · subst j
        exact hk.own _ _ _ c c' _ h.inv hc he hw
      · rw [Function.update_of_ne hji] at hj
        exact hk.keep i j _ _ c c' _ h.inv (h.has j hj) hc he hw

/-- Where each process gets the lock on the index it has seen, the properties hold at every moment.
-/
theorem Keeps.reaches (hk : Keeps ok lib argv I Has) (hg : fs.Good) (hI : I (fs.read indexPath))
    (hr : Config.Reaches (answering ok Fresh lib argv) (updating lib argv fs) c) :
    Config.Sound (terms ok) (fun i => View.init (lib i) ((argv i).drop 1))
      (Kept lib argv I Has (fs.read indexPath)) (fun i => Ended (lib i)) c := by
  refine Config.Sound.reaches ?_ ?_ hr
  · rintro c i o r fs' hj ha ⟨hs, hok, hc⟩
    exact ⟨hj.serial.1.answers ha hs hok, hj.move hk ha.1 (Move.of_step ha hok hc hs)⟩
  · refine ⟨⟨⟨Locked.start hg lib _, fun i hl => absurd rfl hl⟩, fun i => ⟨rfl, rfl⟩, hI,
      fun i hl => absurd rfl hl⟩, fun i => wp_updateCache (lib i) (argv i)⟩

end Rule

/-- What a process alone knows of the index. -/
structure Tracked (fs : FS) (g : View) : Prop where
  handle : g.seen = none → ∀ i, g.handle = some i → fs.dir indexPath = some i
  size : g.seen = none → ∀ n i, g.size = some n → fs.dir indexPath = some i →
    n = (fs.data i).length
  seen : ∀ s, g.seen = some s → g.installed = none → s = fs.read indexPath

theorem Tracked.same (h : Tracked fs g) (hs : SameIndex fs fs') : Tracked fs' g where
  handle h0 i hi := hs.dir ▸ h.handle h0 i hi
  size h0 n i hn hi := by
    rw [hs.dir] at hi
    rw [hs.data i hi]
    exact h.size h0 n i hn hi
  seen s h1 h2 := hs.read ▸ h.seen s h1 h2

theorem Tracked.move {cond : FS → View → Prop} (h : Tracked fs g) (hg : fs.Good)
    (hh : Held fs g) (hm : Move cond ok fs g fs' g') : Tracked fs' g' := by
  rcases hm.index hg hh with ⟨hs, -⟩ | hin
  · have h' := h.same hs
    cases hm with
    | idle => exact h
    | found hd => exact ⟨h.handle, h.size, h.seen⟩
    | absent h0 hd =>
      refine ⟨fun hn => (by cases hn), fun hn => (by cases hn), ?_⟩
      rintro s ⟨⟩ -
      rw [FS.read, hd, Option.map_none]
    | opened h0 hd =>
      refine ⟨?_, h.size, h.seen⟩
      rintro - i ⟨⟩
      exact hd
    | @sized i h0 hh =>
      refine ⟨h.handle, ?_, h.seen⟩
      rintro - n j ⟨⟩ hj
      have hij := Option.some.inj ((h.handle h0 i hh).symm.trans hj)
      rw [hij]
    | @read i m h0 hh hz hm =>
      have hd := h.handle h0 i hh
      have hl := h.size h0 _ i hz hd
      refine ⟨fun hn => (by cases hn), fun hn => (by cases hn), ?_⟩
      rintro s ⟨⟩ -
      rw [hl, List.take_length] at hm
      rw [FS.read, hd, Option.map_some, hm]
    | locked hc hl hs hd => exact ⟨h'.handle, h'.size, h'.seen⟩
    | made ho hp hd => exact ⟨h'.handle, h'.size, h'.seen⟩
    | stored ho hn => exact ⟨h'.handle, h'.size, h'.seen⟩
    | filled ho hl => exact ⟨h'.handle, h'.size, h'.seen⟩
    | installed => exact ⟨h'.handle, h'.size, fun _ _ hn => (by cases hn)⟩
    | released => exact ⟨h'.handle, h'.size, h'.seen⟩
  · obtain ⟨s, -, -, hseen, -⟩ := hin.edits
    rw [hin.view]
    refine ⟨fun hn => ?_, fun hn => ?_, fun _ _ hn => (by cases hn)⟩
    · rw [show g.seen = none from hn] at hseen
      cases hseen
    · rw [show g.seen = none from hn] at hseen
      cases hseen

theorem Tracked.onLock {o : Op} {r : o.Res} (h : Tracked fs g) (ha : (terms ok).allows g o) :
    OnLock Fresh fs g o r := by
  cases o with
  | openExcl p =>
    cases r with
    | error e => trivial
    | ok fd =>
      rintro rfl
      rcases ha.2 with ⟨-, -, s, c, hs, -⟩ | ⟨-, s, hs⟩
      · rw [Fresh, hs, h.seen s hs ha.1]
      · exact absurd hs.symm (sha1FileName_ne_lock _ _)
  | _ => trivial

section Alone
variable {L : Lib} {argv : List CStr} {fs : FS} {c : Machine Unit}
  {ok : (o : Op) → o.Res → Prop}

abbrev alone (L : Lib) (argv : List CStr) (fs : FS) : Machine Unit :=
  updating (fun _ => L) (fun _ => argv) fs

theorem tracked_alone (hg : fs.Good)
    (hr : Config.Reaches (answering ok (fun _ _ => True) (fun _ => L) fun _ => argv)
      (alone L argv fs) c) :
    Config.Sound (terms ok) (fun _ => View.init L (argv.drop 1))
      (fun fs' (v : Unit → View) => Locked (fs.read indexPath) fs' v ∧ Tracked fs' (v ()))
      (fun _ => Ended L) c := by
  refine Config.Sound.reaches ?_ ?_ hr
  · rintro c i o r fs' ⟨hl, ht⟩ ha ⟨hs, hok, hc⟩
    have hm := Move.of_step ha hok hc hs
    refine ⟨hl.answers ha hs hok, hl.move ha.1 hm, ?_⟩
    rw [Function.update_self]
    exact ht.move hl.good (hl.held i) hm
  · refine ⟨⟨Locked.start hg _ _, ?_⟩, fun _ => wp_updateCache L argv⟩
    exact ⟨fun _ _ hn => (by cases hn), fun _ _ _ hn => (by cases hn), fun _ hn => (by cases hn)⟩

theorem alone_fresh (hg : fs.Good)
    (hr : Config.Reaches (answering ok (fun _ _ => True) (fun _ => L) fun _ => argv)
      (alone L argv fs) c) :
    Config.Reaches (answering ok Fresh (fun _ => L) fun _ => argv) (alone L argv fs) c := by
  induction hr with
  | refl => exact .refl
  | tail hr hs ih =>
    refine .tail ih ?_
    have hsound := tracked_alone hg hr
    cases hs with
    | die i => exact .die i
    | @act i o k r fs' hd hp hr =>
      have hw := hsound.each i
      rw [hp, Prog.wp_call] at hw
      exact .act hd hp ⟨hr.1, hr.2.1, hsound.joint.2.onLock hw.1⟩

end Alone

end SelfGit
