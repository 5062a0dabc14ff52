import SelfGit.Locking

namespace SelfGit
open Foundation
set_option autoImplicit true

def View.after (g : View) (past : List (Event Op Op.Res)) : View :=
  past.foldl (fun g e => g.next e.1 e.2) g

/-- Processes that share the repository. -/
abbrev Machine (Pid : Type) := Config Op Op.Res Stop (Option Int × Cache) Pid FS

section Processes
variable {Pid : Type}

/-- The books of process `i`. -/
def books (lib : Pid → Lib) (argv : Pid → List CStr) (c : Machine Pid) (i : Pid) : View :=
  (View.init (lib i) ((argv i).drop 1)).after (c.past i)

def updating (lib : Pid → Lib) (argv : Pid → List CStr) (fs : FS) : Machine Pid :=
  Config.start fs fun i => updateCache (lib i) (argv i)

/-- Any answer that the repository can give: every success, failure and short count. -/
def answered (c : Machine Pid) (_ : Pid) (o : Op) (r : o.Res) (fs : FS) : Prop :=
  c.shared.step o r = some fs

/-- The turn of a process, whatever it asks. -/
def turn (c : Machine Pid) (_ : Pid) (o : Op) (r : o.Res) : Option FS := c.shared.step o r

/-- The answers that satisfy `ok`, with `cond` at the moment a process gets the lock. -/
def answering (ok : (o : Op) → o.Res → Prop) (cond : FS → View → Prop) (lib : Pid → Lib)
    (argv : Pid → List CStr) (c : Machine Pid) (i : Pid) (o : Op) (r : o.Res) (fs : FS) : Prop :=
  c.shared.step o r = some fs ∧ ok o r ∧ OnLock cond c.shared (books lib argv c i) o r

/-- What holds of the answers when nothing is asked of them. -/
abbrev anyAnswer (o : Op) (_ : o.Res) : Prop := True

theorem onLock_any {o : Op} {r : o.Res} : OnLock (fun _ _ => True) fs g o r := by
  cases o with
  | openExcl p =>
    cases r with
    | ok fd => exact fun _ => trivial
    | error e => trivial
  | _ => trivial

def Installed (lib : Pid → Lib) (c : Machine Pid) (i : Pid) (b : List Byte) : Prop :=
  ∃ m es, c.prog i = .ret (some 0, m) ∧ m.Holds es ∧ b = cacheImage (lib i) es ∧
    verifyHdr (lib i) b = 0

/-- All processes on their terms, and their books in order with the repository. -/
abbrev InOrder (ok : (o : Op) → o.Res → Prop) (lib : Pid → Lib) (argv : Pid → List CStr)
    (first : Option (List Byte)) (c : Machine Pid) : Prop :=
  Config.Sound (terms ok) (fun i => View.init (lib i) ((argv i).drop 1)) (Locked first)
    (fun i => Ended (lib i)) c

variable {lib : Pid → Lib} {argv : Pid → List CStr} {fs : FS} {first : Option (List Byte)}
  {c : Machine Pid} {ok : (o : Op) → o.Res → Prop}

theorem InOrder.start (hg : fs.Good) :
    InOrder ok lib argv (fs.read indexPath) (updating lib argv fs) :=
  ⟨Locked.start hg lib _, fun i => wp_updateCache (lib i) (argv i)⟩

theorem InOrder.installed (h : InOrder ok lib argv first c)
    (hi : (books lib argv c i).installed = some b) : Installed lib c i b := by
  have hw := h.each i
  change (c.prog i).wp (terms ok) (Ended (lib i)) (books lib argv c i) at hw
  cases hp : c.prog i with
  | ret a =>
    obtain ⟨r, m⟩ := a
    rw [hp, Prog.wp_ret] at hw
    by_cases hr : r = some 0
    · subst r
      obtain ⟨es, hes, hb⟩ := hw.1 rfl
      have hlt := hes.length_lt
      rw [hi, Option.some.injEq] at hb
      exact ⟨m, es, hp, hes, hb, hb ▸ verifyHdr_cacheImage (lib i) (by omega)⟩
    · rw [(hw.2 hr).1] at hi
      cases hi
  | halt e =>
    rw [hp, Prog.wp_halt] at hw
    rw [show (books lib argv c i).installed = none from hw] at hi
    cases hi
  | call o k =>
    rw [hp, Prog.wp_call] at hw
    rw [hw.1.1] at hi
    cases hi

theorem InOrder.lock_dir (h : InOrder ok lib argv first c)
    (hl : (books lib argv c i).lock ≠ none) :
    (books lib argv c i).lock = c.shared.dir lockPath := by
  obtain ⟨k, hk⟩ := Option.ne_none_iff_exists'.1 hl
  rw [hk, ((h.joint.held i).lock k hk).1.dir]

variable [DecidableEq Pid]

theorem InOrder.reaches (hg : fs.Good)
    (hr : Config.Reaches answered (updating lib argv fs) c) :
    InOrder anyAnswer lib argv (fs.read indexPath) c :=
  Config.Sound.reaches (fun _ _ _ _ _ hj ha hs => hj.step ha hs trivial onLock_any)
    (InOrder.start hg) hr

end Processes

end SelfGit
