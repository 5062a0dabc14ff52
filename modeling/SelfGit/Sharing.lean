import SelfGit.HandlerTerms
import SelfGit.Integrity

namespace SelfGit
open Foundation
set_option autoImplicit true

/-- A property of indexes that lasts, and that an edit hands on to the index it makes. -/
structure Lineage (W : Lib → List CStr → Prop) (ok : (o : Op) → o.Res → Prop)
    (V : FS → Option (List Byte) → Prop) : Prop where
  keep : ∀ fs g fs' g' s, Move (fun _ _ => True) ok fs g fs' g' → V fs s → V fs' s
  next : ∀ fs L ws objects s c c' b, W L ws →
    (∀ s, sha1FileName L s ∈ objects → fs.Stored L s) → V fs s → loaded L s = some c →
    Edits L ok objects c ws c' → c'.image L = some b → V fs (some b)

theorem Lineage.and (h : Lineage W ok V) (h' : Lineage W ok V') :
    Lineage W ok fun fs s => V fs s ∧ V' fs s where
  keep fs g fs' g' s hm := And.imp (h.keep fs g fs' g' s hm) (h'.keep fs g fs' g' s hm)
  next fs L ws objects s c c' b hW hk hv hl he hi :=
    ⟨h.next fs L ws objects s c c' b hW hk hv.1 hl he hi,
      h'.next fs L ws objects s c c' b hW hk hv.2 hl he hi⟩

/-- The paths that `add_file_to_cache` gets to see are nothing more than names to the shell. -/
def PlainWords (W : Lib → List CStr → Prop) : Prop :=
  ∀ L words, W L words → ∀ p ∈ words, verifyPath p = true → SingleCommand p.1

theorem plain_lineage (hW : PlainWords W) : Lineage W ok fun _ s => PlainNames s where
  keep _ _ _ _ _ _ h := h
  next _ L words _ _ _ _ _ hw _ h hl he hi := h.next hl he (hW L words hw) hi

/-- The file that a process has opened as the index: nobody writes to it any more. -/
structure Opened (V : FS → Option (List Byte) → Prop) (fs : FS) (v : Pid → View)
    (size : Option Nat) (k : Nat) : Prop where
  old : k < fs.next
  version : V fs (some (fs.data k))
  size : ∀ n, size = some n → n = (fs.data k).length
  apart : ∀ j, (v j).lock ≠ some k ∧ ∀ p, (v j).object ≠ some (k, p)

/-- How a repository and the books of all processes fit together. -/
structure Shared (V : FS → Option (List Byte) → Prop) (lib : Pid → Lib) (fs : FS)
    (v : Pid → View) : Prop where
  locked : Locked (fs.read indexPath) fs v
  library : ∀ i, (v i).lib = lib i
  known : ∀ i s, sha1FileName (lib i) s ∈ (v i).objects → fs.Stored (lib i) s
  index : V fs (fs.read indexPath)
  seen : ∀ i s, (v i).seen = some s → V fs s
  unsized : ∀ i, (v i).handle = none → (v i).seen = none → (v i).size = none
  handle : ∀ i k, (v i).handle = some k → (v i).seen = none → Opened V fs v (v i).size k

section Moves
variable {cond : FS → View → Prop} {ok : (o : Op) → o.Res → Prop} {fs fs' : FS} {g g' : View}

theorem Move.next_le (hm : Move cond ok fs g fs' g') : fs.next ≤ fs'.next := by
  cases hm with
  | locked hc hl hs hd => exact Nat.le_succ _
  | made ho hp hd => exact Nat.le_succ _
  | _ => exact Nat.le_refl _

theorem Move.keeps_file (hm : Move cond ok fs g fs' g') (hk : k < fs.next)
    (hl : g.lock ≠ some k) (ho : ∀ p, g.object ≠ some (k, p)) : fs'.data k = fs.data k := by
  cases hm with
  | locked hc hl' hs hd => exact Function.update_of_ne (Nat.ne_of_lt hk) _ _
  | made ho' hp hd => exact Function.update_of_ne (Nat.ne_of_lt hk) _ _
  | stored ho' hn =>
    refine FS.append_data_of_ne ?_ _
    rintro rfl
    exact ho _ ho'
  | filled ho' hl' =>
    refine FS.append_data_of_ne ?_ _
    rintro rfl
    exact hl hl'
  | _ => rfl

theorem Move.lock_new (hm : Move cond ok fs g fs' g') (h : g'.lock = some k) :
    g.lock = some k ∨ k = fs.next := by
  cases hm with
  | locked hc hl hs hd => exact .inr (Option.some.inj h).symm
  | installed hl hs hc he hw hd => cases h
  | released hl => cases h
  | _ => exact .inl h

theorem Move.object_new (hm : Move cond ok fs g fs' g') (h : g'.object = some (k, p)) :
    g.object = some (k, p) ∨ k = fs.next := by
  cases hm with
  | made ho hp hd =>
    cases h
    exact .inr rfl
  | stored ho hn => cases h
  | _ => exact .inl h

theorem Move.known (hm : Move cond ok fs g fs' g') (h : sha1FileName L s ∈ g.objects → fs.Stored L s)
    (hs : sha1FileName L s ∈ g'.objects) : fs'.Stored L s := by
  have hold : sha1FileName L s ∈ g.objects → fs'.Stored L s := fun hs => (h hs).move hm
  cases hm with
  | found hd =>
    rcases List.mem_cons.1 hs with rfl | hs
    · rw [FS.Stored, hd]
      exact Option.some_ne_none _
    · exact h hs
  | made ho hp hd =>
    rcases List.mem_cons.1 hs with hsp | hs
    · rw [FS.Stored, FS.create_dir, if_pos hsp]
      exact Option.some_ne_none _
    · exact hold hs
  | _ => exact hold hs

theorem Move.looks (hm : Move cond ok fs g fs' g') (h : g'.seen = none) : g.seen = none ∧
    (g'.handle = g.handle ∧ g'.size = g.size ∨
      (∃ k, g.handle = some k ∧ g'.handle = some k ∧ g'.size = some (fs.data k).length ∧
        fs' = fs) ∨
      ∃ k, fs.dir indexPath = some k ∧ g'.handle = some k ∧ g'.size = g.size ∧ fs' = fs) := by
  cases hm with
  | absent hs hd => cases h
  | opened hs hd => exact ⟨h, .inr (.inr ⟨_, hd, rfl, rfl, rfl⟩)⟩
  | sized hs hh => exact ⟨h, .inr (.inl ⟨_, hh, hh, rfl, rfl⟩)⟩
  | read hs hh hz hm => cases h
  | _ => exact ⟨h, .inl ⟨rfl, rfl⟩⟩

theorem Move.sees (hm : Move cond ok fs g fs' g') (h : g'.seen = some s) :
    g.seen = some s ∨ fs' = fs ∧ g.seen = none ∧ (s = none ∧ fs.dir indexPath = none ∨
      ∃ k m, g.handle = some k ∧ s = some m ∧ g.size = some m.length ∧
        m = (fs.data k).take m.length) := by
  cases hm with
  | absent hs hd =>
    cases h
    exact .inr ⟨rfl, hs, .inl ⟨rfl, hd⟩⟩
  | read hs hh hz hm =>
    cases h
    exact .inr ⟨rfl, hs, .inr ⟨_, _, hh, rfl, hz, hm⟩⟩
  | _ => exact .inl h

end Moves

section Joint
variable {Pid : Type} {V : FS → Option (List Byte) → Prop} {W : Lib → List CStr → Prop}
  {ok : (o : Op) → o.Res → Prop} {lib : Pid → Lib} {fs fs' : FS} {v : Pid → View} {g' : View}
  {first : Option (List Byte)} {size : Option Nat} {i : Pid} {k : Nat}

theorem Locked.now (h : Locked first fs v) : Locked (fs.read indexPath) fs v :=
  ⟨h.good, h.held, h.lone, .inl rfl⟩

theorem Shared.opens (h : Shared V lib fs v) (hd : fs.dir indexPath = some k) :
    Opened V fs v none k where
  old := h.locked.good _ _ hd
  version := by
    have hindex := h.index
    rwa [FS.read, hd] at hindex
  size _ hn := by cases hn
  apart j := by
    refine ⟨fun hl => ?_, fun p ho => ?_⟩
    · exact index_ne_lock (((h.locked.held j).lock k hl).1 indexPath |>.1 hd)
    · obtain ⟨hown, -, hp⟩ := (h.locked.held j).object k p ho
      exact hp ((hown indexPath).1 hd).symm

variable [DecidableEq Pid]

theorem Opened.move (h : Opened V fs v size k) (hV : Lineage W ok V)
    (hm : Move (fun _ _ => True) ok fs (v i) fs' g') :
    Opened V fs' (Function.update v i g') size k := by
  have hdata : fs'.data k = fs.data k := hm.keeps_file h.old (h.apart i).1 (h.apart i).2
  refine ⟨Nat.lt_of_lt_of_le h.old hm.next_le, ?_, ?_, fun j => ?_⟩
  · rw [hdata]
    exact hV.keep _ _ _ _ _ hm h.version
  · rw [hdata]
    exact h.size
  · by_cases hji : j = i
    · subst hji
      rw [Function.update_self]
      refine ⟨fun hl => ?_, fun p ho => ?_⟩
      · rcases hm.lock_new hl with hl' | rfl
        · exact (h.apart j).1 hl'
        · exact Nat.lt_irrefl _ h.old
      · rcases hm.object_new ho with ho' | rfl
        · exact (h.apart j).2 p ho'
        · exact Nat.lt_irrefl _ h.old
    · rw [Function.update_of_ne hji]
      exact h.apart j

/-- An operation of one process on its terms. -/
theorem Shared.move (hV : Lineage W ok V) (h : Shared V lib fs v) (hi : (v i).installed = none)
    (hm : Move (fun _ _ => True) ok fs (v i) fs' g')
    (hW : g'.installed ≠ none → W (lib i) (v i).words)
    (hopen : g'.handle ≠ (v i).handle → (v i).handle = none) :
    Shared V lib fs' (Function.update v i g') where
  locked := (h.locked.move hi hm).now
  library j := by
    by_cases hji : j = i
    · subst hji
      rw [Function.update_self, hm.constant.1, h.library]
    · rw [Function.update_of_ne hji, h.library]
  known j s hs := by
    by_cases hji : j = i
    · subst hji
      rw [Function.update_self] at hs
      exact hm.known (h.known j s) hs
    · rw [Function.update_of_ne hji] at hs
      exact (h.known j s hs).move hm
  index := by
    rcases hm.index h.locked.good (h.locked.held i) with ⟨hsame, -⟩ | hin
    · rw [hsame.read]
      exact hV.keep _ _ _ _ _ hm h.index
    · obtain ⟨s, c, c', hseen, hc, hed, himage⟩ := hin.edits
      obtain ⟨b, hb, -⟩ := hin.installed
      rw [h.library] at hc hed himage
      rw [hin.index]
      refine hV.keep _ _ _ _ _ hm ?_
      exact hV.next _ _ _ _ _ _ _ _ (hW (hb ▸ Option.some_ne_none b)) (h.known i) (h.seen i s hseen)
        hc hed himage
  seen j s hs := by
    by_cases hji : j = i
    · subst hji
      rw [Function.update_self] at hs
      rcases hm.sees hs with hold | ⟨rfl, hnone, ⟨rfl, hd⟩ | ⟨k, m, hh, rfl, hz, htake⟩⟩
      · exact hV.keep _ _ _ _ _ hm (h.seen j s hold)
      · have hindex := h.index
        rwa [FS.read, hd] at hindex
      · have hopened := h.handle j k hh hnone
        rw [hopened.size _ hz, List.take_length] at htake
        rw [htake]
        exact hopened.version
    · rw [Function.update_of_ne hji] at hs
      exact hV.keep _ _ _ _ _ hm (h.seen j s hs)
  unsized j hh hs := by
    by_cases hji : j = i
    · subst hji
      rw [Function.update_self] at hh hs ⊢
      obtain ⟨hs', ⟨hh', hz⟩ | ⟨k, -, hk, -⟩ | ⟨k, -, hk, -⟩⟩ := hm.looks hs
      · rw [hz]
        exact h.unsized j (hh'.symm.trans hh) hs'
      · rw [hk] at hh
        cases hh
      · rw [hk] at hh
        cases hh
    · rw [Function.update_of_ne hji] at hh hs ⊢
      exact h.unsized j hh hs
  handle j k hh hs := by
    by_cases hji : j = i
    · subst hji
      rw [Function.update_self] at hh hs ⊢
      obtain ⟨hs', ⟨hh', hz⟩ | ⟨k', hk, hk', hz, rfl⟩ | ⟨k', hd, hk, hz, rfl⟩⟩ := hm.looks hs
      · rw [hz]
        exact (h.handle j k (hh'.symm.trans hh) hs').move hV hm
      · obtain rfl := Option.some.inj (hk'.symm.trans hh)
        obtain ⟨hold, hversion, -, hapart⟩ := (h.handle j k' hk hs').move hV hm
        refine ⟨hold, hversion, fun n hn => ?_, hapart⟩
        rw [hz] at hn
        exact (Option.some.inj hn).symm
      · obtain rfl := Option.some.inj (hk.symm.trans hh)
        by_cases hsame : g'.handle = (v j).handle
        · rw [hz]
          exact (h.handle j k' (hsame.symm.trans hk) hs').move hV hm
        · rw [hz, h.unsized j (hopen hsame) hs']
          exact (h.opens hd).move hV hm
    · rw [Function.update_of_ne hji] at hh hs ⊢
      exact (h.handle j k hh hs).move hV hm

theorem Shared.enter (h : Shared V lib fs v) (words : List CStr) :
    Shared V lib fs (Function.update v i (View.init (lib i) words)) where
  locked := by
    refine ⟨h.locked.good, ?_, ?_, .inl rfl⟩
    · rw [Function.forall_update_iff v fun _ g => Held fs g]
      exact ⟨⟨fun _ hk => (by cases hk), fun _ _ hk => (by cases hk)⟩, fun j _ => h.locked.held j⟩
    · have hlock := (Function.forall_update_iff (a := i) (b := View.init (lib i) words) v
        fun j g => g.lock ≠ none → (v j).lock ≠ none).2 ⟨fun hl => absurd rfl hl, fun _ _ => id⟩
      exact fun a b ha hb => h.locked.lone a b (hlock a ha) (hlock b hb)
  library := (Function.forall_update_iff v fun j g => g.lib = lib j).2 ⟨rfl, fun j _ => h.library j⟩
  known := (Function.forall_update_iff v fun j g => ∀ s, sha1FileName (lib j) s ∈ g.objects →
    fs.Stored (lib j) s).2 ⟨fun _ hs => (by cases hs), fun j _ => h.known j⟩
  index := h.index
  seen := (Function.forall_update_iff v fun _ g => ∀ s, g.seen = some s → V fs s).2
    ⟨fun _ hs => (by cases hs), fun j _ => h.seen j⟩
  unsized := (Function.forall_update_iff v fun _ g => g.handle = none → g.seen = none →
    g.size = none).2 ⟨fun _ _ => rfl, fun j _ => h.unsized j⟩
  handle := by
    rw [Function.forall_update_iff v fun _ g => ∀ k, g.handle = some k → g.seen = none →
      Opened V fs _ g.size k]
    refine ⟨fun _ hk => (by cases hk), fun j _ k hh hs => ?_⟩
    obtain ⟨hold, hversion, hsize, hapart⟩ := h.handle j k hh hs
    refine ⟨hold, hversion, hsize, ?_⟩
    rw [Function.forall_update_iff v fun _ g => g.lock ≠ some k ∧ ∀ p, g.object ≠ some (k, p)]
    exact ⟨⟨fun hk => (by cases hk), fun _ hk => (by cases hk)⟩, fun j _ => hapart j⟩

end Joint

/-- What an operation does to the repository. A command that is started does what the shell makes
of it; all but these and the operations on the repository itself leave it alone. -/
def GitOp.Acts (shell : List Byte → FS → FS → Prop) (fs : FS) : (o : GitOp) → o.Res → FS → Prop
  | .console (.sys o), r, fs' => fs.step o r = some fs'
  | .console (.popen cmd), (started : Bool), fs' => if started then shell cmd fs fs' else fs' = fs
  | _, _, fs' => fs' = fs

/-- One way an operation can act: the commands that are started do nothing to the repository. -/
def GitOp.step (fs : FS) : (o : GitOp) → o.Res → Option FS
  | .console (.sys o), r => fs.step o r
  | _, _ => some fs

/-- The answers of an undisturbed machine, on which all working files have two bytes. -/
def GitOp.serve (files : Files) (fs : FS) : (o : GitOp) → o.Res
  | .console (.sys o) => fs.serve files o
  | .console (.stat _) => .ok (Stat.ofSize 2)
  | .console (.printf _) => ()
  | .console (.popen _) => true
  | .console (.fwrite _) => ()
  | .directory (.mkdir _) => .ok ()
  | .directory (.stat _) => none
  | .directory (.malloc _) => true
  | .mkstemp _ => .error .other
  | .fill _ buf => (buf.length : Int)
  | .enter _ _ => ()
  | .treeOf _ => ()

/-- Whole processes that share the repository. -/
abbrev GitMachine (Pid : Type) := Config GitOp GitOp.Res Stop Int Pid FS

section Processes
variable {Pid : Type}

def gitRunning (E : Pid → Env) (argv : Pid → List CStr) (fs : FS) : GitMachine Pid :=
  Config.start fs fun i => git (E i) (argv i)

/-- Any answer that the repository can give, and any at all to the other questions. -/
def gitAnswered (shell : List Byte → FS → FS → Prop) (c : GitMachine Pid) (_ : Pid) (o : GitOp)
    (r : o.Res) (fs : FS) : Prop :=
  GitOp.Acts shell c.shared o r fs

def gitTurn (c : GitMachine Pid) (_ : Pid) (o : GitOp) (r : o.Res) : Option FS :=
  GitOp.step c.shared o r

/-- The books of process `i`, opened anew for each handler. -/
def gitBooks (E : Pid → Env) (c : GitMachine Pid) (i : Pid) : View :=
  (c.past i).foldl (fun g e => g.gitNext e.1 e.2) (View.init (E i).lib [])

/-- The words that some process calls `update_cache` with. -/
def Told (E : Pid → Env) (argv : Pid → List CStr) (L : Lib) (words : List CStr) : Prop :=
  ∃ i argv', L = (E i).lib ∧ (.updateCache, argv') ∈ gitCalls (E i).posix (argv i) ∧
    words = argv'.drop 1

/-- All processes on their terms, and their books in order with the repository. -/
abbrev InConcert (V : FS → Option (List Byte) → Prop) (E : Pid → Env) (argv : Pid → List CStr)
    (c : GitMachine Pid) : Prop :=
  Config.Sound (gitTerms (Told E argv) anyAnswer) (fun i => View.init (E i).lib [])
    (Shared V fun i => (E i).lib) (fun _ _ g => g.object = none) c

variable {V : FS → Option (List Byte) → Prop} {W : Lib → List CStr → Prop} {E : Pid → Env}
  {argv : Pid → List CStr} {fs fs' : FS} {v : Pid → View} {c c' : GitMachine Pid} {i : Pid}
  {shell : List Byte → FS → FS → Prop}

theorem GitOp.Acts.of_step {o : GitOp} {r : o.Res} (hidle : ∀ cmd fs, shell cmd fs fs)
    (h : GitOp.step fs o r = some fs') : GitOp.Acts shell fs o r fs' := by
  have hquiet : GitOp.step fs o r = some fs → fs' = fs := by
    intro hsame
    exact Option.some.inj (h.symm.trans hsame)
  cases o with
  | console o =>
    cases o with
    | sys o => exact h
    | popen cmd =>
      obtain rfl : fs' = fs := hquiet rfl
      cases r with
      | false => rfl
      | true => exact hidle cmd fs'
    | _ => exact hquiet rfl
  | _ => exact hquiet rfl

theorem Shared.start (lib : Pid → Lib) (hg : fs.Good) (h0 : V fs (fs.read indexPath)) :
    Shared V lib fs fun i => View.init (lib i) [] where
  locked := Locked.start hg lib fun _ => []
  library _ := rfl
  known _ _ hs := by cases hs
  index := h0
  seen _ _ hs := by cases hs
  unsized _ _ _ := rfl
  handle _ _ hh := by cases hh

theorem InConcert.start (hg : fs.Good) (h0 : V fs (fs.read indexPath)) :
    InConcert V E argv (gitRunning E argv fs) :=
  ⟨Shared.start _ hg h0, fun i => wp_git (E i) (argv i) fun argv' hcall => ⟨i, argv', rfl, hcall, rfl⟩⟩

/-- What `show_diff` starts for an index that it may find does nothing to the repository. -/
structure Calm (shell : List Byte → FS → FS → Prop) (V : FS → Option (List Byte) → Prop) :
    Prop where
  shell : Harmless shell
  plain : ∀ fs s, V fs s → PlainNames s

theorem Shared.popen {lib : Pid → Lib} {started : Bool} (hcalm : Calm shell V)
    (h : Shared V lib fs v) (ha : (v i).mayDiff cmd)
    (hs : GitOp.Acts shell fs (.console (.popen cmd)) started fs') : fs' = fs := by
  cases started with
  | false => exact hs
  | true =>
    obtain ⟨s, c, e, n, hseen, hload, he, hn, rfl⟩ := ha
    have htame : e.Tame := hcalm.plain fs s (h.seen i s hseen) _ c hload e he
    exact hcalm.shell _ fs fs' (htame n hn) hs

variable [DecidableEq Pid]

theorem Shared.sys {lib : Pid → Lib} {o : Op} {r : o.Res} (hV : Lineage W anyAnswer V)
    (h : Shared V lib fs v) (ha : (v i).gitMay W anyAnswer (.console (.sys o)))
    (hs : fs.step o r = some fs') :
    (terms anyAnswer).answers (v i) o r ∧ Shared V lib fs' (Function.update v i ((v i).next o r)) := by
  obtain ⟨hallows, hW, hopen⟩ := ha
  refine ⟨h.locked.answers hallows hs trivial, ?_⟩
  refine h.move hV hallows.1 (Move.of_step hallows trivial onLock_any hs) (fun hi => ?_) fun hh => ?_
  · rcases ((v i).next_same o r).installed with hsame | ⟨hren, -⟩
    · exact absurd (hsame.trans hallows.1) hi
    · exact h.library i ▸ hW hren
  · rcases ((v i).next_same o r).handle with hsame | ⟨hindex, hseen⟩
    · exact absurd hsame hh
    · exact (hopen hindex).resolve_right fun hn => hn hseen

/-- One operation of one process, on its terms. -/
theorem Shared.step {lib : Pid → Lib} {o : GitOp} {r : o.Res} (hV : Lineage W anyAnswer V)
    (hcalm : Calm shell V) (h : Shared V lib fs v) (ha : (gitTerms W anyAnswer).allows (v i) o)
    (hs : GitOp.Acts shell fs o r fs') :
    (gitTerms W anyAnswer).answers (v i) o r ∧
      Shared V lib fs' (Function.update v i ((gitTerms W anyAnswer).next (v i) o r)) := by
  have hquiet : (v i).gitNext o r = v i → fs' = fs →
      Shared V lib fs' (Function.update v i ((v i).gitNext o r)) := by
    rintro hn rfl
    rwa [hn, Function.update_eq_self]
  cases o with
  | console o =>
    cases o with
    | sys o => exact h.sys hV ha hs
    | popen cmd => exact ⟨trivial, hquiet rfl (h.popen hcalm ha hs)⟩
    | _ => exact ⟨trivial, hquiet rfl hs⟩
  | enter handler words =>
    refine ⟨trivial, ?_⟩
    obtain rfl : fs' = fs := hs
    have henter := fun ws => h.enter (i := i) ws
    rw [← h.library i] at henter
    cases handler <;> exact henter _
  | _ => exact ⟨trivial, hquiet rfl hs⟩

/-- Whatever the command lines, every interleaving of whole processes keeps to the terms. -/
theorem InConcert.reaches (hV : Lineage (Told E argv) anyAnswer V) (hcalm : Calm shell V)
    (hg : fs.Good) (h0 : V fs (fs.read indexPath))
    (hr : Config.Reaches (gitAnswered shell) (gitRunning E argv fs) c) : InConcert V E argv c :=
  Config.Sound.reaches (fun _ _ _ _ _ hj ha hs => hj.step hV hcalm ha hs) (InConcert.start hg h0) hr

end Processes

end SelfGit
