import SelfGit.Console
import SelfGit.Reload

namespace SelfGit
open Foundation
set_option autoImplicit true

/-- What a user with one process at a time has before him, and what has been printed. -/
structure Site where
  fs : FS
  names : Names
  temps : Path → Option (List Byte)
  out : List Shown

namespace Site

def screen : Part Site Screen where
  get w := ⟨w.fs, w.out⟩
  put w s := { w with fs := s.fs, out := s.out }
  get_put _ _ := rfl
  put_put _ _ _ := rfl
  put_get _ := rfl

def repository : Part Site FS where
  get := Site.fs
  put w fs := { w with fs := fs }
  get_put _ _ := rfl
  put_put _ _ _ := rfl
  put_get _ := rfl

def shows (w : Site) (ts : List (List Byte)) : Site := { w with out := w.out ++ ts.map .text }

def setTemp (w : Site) (name : Path) (content : List Byte) : Site :=
  { w with temps := Function.update w.temps name (some content) }

@[simp] theorem shows_temps (w : Site) (ts : List (List Byte)) : (w.shows ts).temps = w.temps := rfl

@[simp] theorem shows_nil (w : Site) : w.shows [] = w := by
  simp only [shows, List.map_nil, List.append_nil]

@[simp] theorem shows_shows (w : Site) (ts us : List (List Byte)) :
    (w.shows ts).shows us = w.shows (ts ++ us) := by
  simp only [shows, List.map_append, List.append_assoc]

@[simp] theorem setTemp_setTemp (w : Site) (name : Path) (b b' : List Byte) :
    (w.setTemp name b).setTemp name b' = w.setTemp name b' := by
  simp only [setTemp, Function.update_idem]

end Site

/-- What `mkstemp` makes of a template: it chooses the last six characters. -/
def MadeFrom (template name : List Byte) : Prop :=
  name.length = template.length ∧
    name.take (template.length - 6) = template.take (template.length - 6)

/-- The answers at a site, while the files of the working directory have the given status. -/
def GitAnswers (ok : (o : Op) → o.Res → Prop) (work : Path → Except Errno Stat) (w : Site) :
    (o : GitOp) → o.Res → Site → Prop
  | .console o, r, w' =>
    ∃ s, ShowAnswers ok work (Site.screen.get w) o r s ∧ w' = Site.screen.put w s
  | .directory o, r, w' => ∃ t, w.names.step o r = some t ∧ w' = { w with names := t }
  | .mkstemp template, .ok name, w' =>
    MadeFrom template name ∧ w.temps name = none ∧ w' = w.setTemp name []
  | .mkstemp _, .error _, w' => w' = w
  | .fill name buf, (n : Int), w' =>
    n = -1 ∧ w' = w ∨ ∃ k ≤ buf.length, n = (k : Nat) ∧ w' = w.setTemp name (buf.take k)
  | .enter _ _, _, w' => w' = w
  | .treeOf _, _, w' => w' = w

/-- The complete runs of a process, or a part of one, at a site. -/
abbrev GitRuns (ok : (o : Op) → o.Res → Prop) (work : Path → Except Errno Stat) (w : Site)
    (p : GitProc α) (x : Except Stop α) (w' : Site) : Prop :=
  Prog.Runs (GitAnswers ok work) w p x w'

section Running
variable {ok : (o : Op) → o.Res → Prop} {work : Path → Except Errno Stat} {w w' : Site}
  {α β : Type} {x : Except Stop α}

theorem git_seq {x : Except Stop β} (p : GitProc α) (f : α → GitProc β) :
    GitRuns ok work w (p >>= f) x w' ↔
      (∃ a w₁, GitRuns ok work w p (.ok a) w₁ ∧ GitRuns ok work w₁ (f a) x w') ∨
        ∃ e, x = .error e ∧ GitRuns ok work w p (.error e) w' :=
  Prog.runs_bind p f

theorem sys_runs {p : Proc α} : GitRuns ok work w (Console.sys p) x w' ↔
    ∃ fs, RunsTo ok w.fs p x fs ∧ w' = { w with fs := fs } := by
  refine Prog.runs_embed Site.repository (fun w o r w' => ?_) fun o r => ⟨r, rfl⟩
  constructor
  · rintro ⟨⟨fs, out⟩, ⟨hfs, hout⟩, rfl⟩
    obtain rfl : out = w.out := hout
    exact ⟨fs, hfs, rfl⟩
  · rintro ⟨fs, hfs, rfl⟩
    exact ⟨⟨fs, w.out⟩, ⟨hfs, rfl⟩, rfl⟩

theorem sys_reads {p : Proc β} {a : β} (hp : ∀ y fs, RunsTo ok w.fs p y fs ↔ fs = w.fs ∧ y = .ok a)
    (f : β → GitProc α) :
    GitRuns ok work w (Console.sys p >>= f) x w' ↔ GitRuns ok work w (f a) x w' := by
  simp only [git_seq, sys_runs, hp]
  constructor
  · rintro (⟨b, w₁, ⟨fs, ⟨rfl, hb⟩, rfl⟩, h⟩ | ⟨e, -, fs, ⟨-, he⟩, -⟩)
    · cases hb
      exact h
    · cases he
  · intro h
    exact .inl ⟨a, w, ⟨w.fs, ⟨rfl, rfl⟩, rfl⟩, h⟩

@[simp] theorem runs_say (t : List Byte) (f : Unit → GitProc α) :
    GitRuns ok work w (Console.say t >>= f) x w' ↔ GitRuns ok work (w.shows [t]) (f ()) x w' := by
  refine (Prog.runs_call (o := GitOp.console (.printf t))).trans ?_
  constructor
  · rintro ⟨r, w₁, ⟨s, rfl, rfl⟩, h⟩
    exact h
  · intro h
    exact ⟨(), _, ⟨_, rfl, rfl⟩, h⟩

theorem runs_sayAll (ts : List (List Byte)) (f : Unit → GitProc α) :
    GitRuns ok work w (Console.sayAll ts >>= f) x w' ↔
      GitRuns ok work (w.shows ts) (f ()) x w' := by
  induction ts generalizing w with
  | nil =>
    rw [Console.sayAll, pure_bind, Site.shows_nil]
  | cons t ts ih =>
    rw [Console.sayAll, bind_assoc, runs_say, ih, Site.shows_shows, List.singleton_append]

@[simp] theorem runs_enter (h : Handler) (argv : List CStr) (f : Unit → GitProc α) :
    GitRuns ok work w (Console.enter h argv >>= f) x w' ↔ GitRuns ok work w (f ()) x w' := by
  refine (Prog.runs_call (o := GitOp.enter h argv)).trans ?_
  constructor
  · rintro ⟨r, w₁, rfl, h⟩
    exact h
  · intro h
    exact ⟨(), w, rfl, h⟩

@[simp] theorem runs_markTree (es : List CacheEntry) (f : Unit → GitProc α) :
    GitRuns ok work w (Console.treeOf es >>= f) x w' ↔ GitRuns ok work w (f ()) x w' := by
  refine (Prog.runs_call (o := GitOp.treeOf es)).trans ?_
  constructor
  · rintro ⟨r, w₁, rfl, h⟩
    exact h
  · intro h
    exact ⟨(), w, rfl, h⟩

end Running

def Begins (posix : Bool) (argv : List CStr) (h : Handler) (words : List CStr) (rest : List Action)
    (code : Int) : Prop :=
  main posix argv = some (.call h words :: rest, code)

theorem Begins.git {E : Env} (hb : Begins E.posix argv h words rest code) :
    git E argv = h.run E words Cache.null >>= fun c => perform E rest c >>= fun _ => pure code := by
  obtain ⟨actions, code', hmain, hgit⟩ := git_perform E argv
  rw [hb, Option.some.injEq, Prod.mk.injEq] at hmain
  obtain ⟨rfl, rfl⟩ := hmain
  rw [hgit, perform, bind_assoc]

end SelfGit
