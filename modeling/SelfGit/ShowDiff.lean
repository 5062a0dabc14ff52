import SelfGit.Foundation.Embedding
import SelfGit.IndexRoundTrip
import SelfGit.TreeRoundTrip

namespace SelfGit
open Foundation
set_option autoImplicit true

def mtimeChanged : UInt32 := 0x0001
def ctimeChanged : UInt32 := 0x0002
def ownerChanged : UInt32 := 0x0004
def modeChanged : UInt32 := 0x0008
def inodeChanged : UInt32 := 0x0010
def dataChanged : UInt32 := 0x0020

def matchStat (ce : CacheEntry) (st : Stat) : UInt32 :=
  let changed : UInt32 := 0
  let changed := if ce.mtime.sec ≠ st.mtimeSec.toUInt32 ∨ ce.mtime.nsec ≠ st.mtimeNsec.toUInt32 then
    changed ||| mtimeChanged else changed
  let changed := if ce.ctime.sec ≠ st.ctimeSec.toUInt32 ∨ ce.ctime.nsec ≠ st.ctimeNsec.toUInt32 then
    changed ||| ctimeChanged else changed
  let changed := if ce.stUid ≠ st.stUid.toUInt32 ∨ ce.stGid ≠ st.stGid.toUInt32 then
    changed ||| ownerChanged else changed
  let changed := if ce.stMode ≠ st.stMode.toUInt32 then changed ||| modeChanged else changed
  let changed := if ce.stDev ≠ st.stDev.toUInt32 ∨ ce.stIno ≠ st.stIno.toUInt32 then
    changed ||| inodeChanged else changed
  if ce.stSize ≠ st.stSize.toUInt32 then changed ||| dataChanged else changed

/-- What `show_diff` asks for besides what it does in the repository: the status of a file by its
name, a text on the standard output, and a command with a text on its standard input. -/
inductive ShowOp where
  | sys (o : Op)
  | stat (path : Path)
  | printf (text : List Byte)
  | popen (cmd : List Byte)
  | fwrite (text : List Byte)

def ShowOp.Res : ShowOp → Type
  | .sys o => o.Res
  | .stat _ => Except Errno Stat
  | .printf _ => Unit
  | .popen _ => Bool
  | .fwrite _ => Unit

abbrev ShowProc := Prog ShowOp ShowOp.Res Stop

def onRepo (p : Proc α) : ShowProc α := p.embed ShowOp.sys fun _ r => r
def statFile (path : Path) : ShowProc (Except Errno Stat) := Prog.ask (ShowOp.stat path)
def printf (text : List Byte) : ShowProc Unit := Prog.ask (ShowOp.printf text)
def popen (cmd : List Byte) : ShowProc Bool := Prog.ask (ShowOp.popen cmd)
def fwrite (text : List Byte) : ShowProc Unit := Prog.ask (ShowOp.fwrite text)

/-- The command, as far as `snprintf` has room for it in 1000 bytes. -/
def diffCommand (name : List Byte) : List Byte := (str "diff -u - " ++ name).take 999

/-- Without a stream, or without the old contents and so their size, there is nothing `fwrite` may do. -/
def showDifferences (name : List Byte) (old : Option (List Byte × Nat × List Byte)) :
    ShowProc Unit := do
  if ← popen (diffCommand name) then
    match old with
    | some (_, _, contents) => fwrite contents
    | none => Prog.halt .fault
  else Prog.halt .fault

/-- One turn of the loop of `show_diff`. The name is a string here, and has to end. -/
def showEntry (L : Lib) (ce : CacheEntry) : ShowProc Unit := do
  let n ← Prog.ofOption .fault (strlen ce.name)
  match ← statFile (ce.name.take n) with
  -- `strerror` has no declaration here and is taken to return an `int`, which `%s` follows
  | .error _ => Prog.halt .fault
  | .ok st =>
    if matchStat ce st = 0 then printf (ce.name.take n ++ str ": ok\n")
    else
      printf (ce.key.takeWhile (· ≠ 0) ++ str ":  " ++ sha1ToHex ce.sha1.toList ++ str "\n")
      let old ← onRepo (readSha1File L ce.sha1)
      showDifferences (ce.name.take n) old

def showEntries (L : Lib) : Nat → List (Option CacheEntry) → ShowProc Unit
  | 0, _ => return ()
  | n + 1, some ce :: slots => do
    showEntry L ce
    showEntries L n slots
  | _ + 1, _ => Prog.halt .fault

/-- What goes to the standard error is left out. -/
def showDiff (L : Lib) : ShowProc Int := do
  let (entries, c) ← onRepo (readCache L Cache.null)
  if entries < 0 then Prog.halt (.exit 1)
  else
    showEntries L entries.toNat c.activeCache
    return 0

/-- What a reader of the output sees, in order. -/
inductive Shown where
  | text (t : List Byte)
  | command (cmd : List Byte)
  | input (t : List Byte)

structure Screen where
  fs : FS
  out : List Shown

def Screen.repository : Part Screen FS where
  get := Screen.fs
  put w fs := { w with fs := fs }
  get_put _ _ := rfl
  put_put _ _ _ := rfl
  put_get _ := rfl

/-- The answers while the files have the given status. The command started may do anything. -/
def ShowAnswers (ok : (o : Op) → o.Res → Prop) (work : Path → Except Errno Stat) (w : Screen) :
    (o : ShowOp) → o.Res → Screen → Prop
  | .sys o, r, w' => Answers ok w.fs o r w'.fs ∧ w'.out = w.out
  | .stat path, r, w' => r = work path ∧ w' = w
  | .printf t, _, w' => w' = ⟨w.fs, w.out ++ [.text t]⟩
  | .popen cmd, _, w' => ∃ fs, w' = ⟨fs, w.out ++ [.command cmd]⟩
  | .fwrite t, _, w' => w' = ⟨w.fs, w.out ++ [.input t]⟩

abbrev ShowRuns (ok : (o : Op) → o.Res → Prop) (work : Path → Except Errno Stat) (w : Screen)
    (p : ShowProc α) (x : Except Stop α) (w' : Screen) : Prop :=
  Prog.Runs (ShowAnswers ok work) w p x w'

section Running
variable {ok : (o : Op) → o.Res → Prop} {work : Path → Except Errno Stat} {w w' : Screen}
  {α : Type} {x : Except Stop α}

theorem show_grows (p : ShowProc α) (h : ShowRuns ok work w p x w') : w.out <+: w'.out := by
  induction p generalizing w with
  | ret a => rw [(Prog.runs_ret.1 h).2]
  | halt e => rw [(Prog.runs_halt.1 h).2]
  | call o k ih =>
    obtain ⟨r, w₁, hr, h⟩ := Prog.runs_call.1 h
    refine List.IsPrefix.trans ?_ (ih r h)
    cases o with
    | sys o => rw [hr.2]
    | stat path => rw [hr.2]
    | printf t => rw [hr]; exact List.prefix_append _ _
    | popen cmd =>
      obtain ⟨fs, rfl⟩ := hr
      exact List.prefix_append _ _
    | fwrite t => rw [hr]; exact List.prefix_append _ _

end Running

/-- The file of an entry has the status it was recorded with. -/
def Unchanged (work : Path → Except Errno Stat) (ce : CacheEntry) (name : List Byte) : Prop :=
  ∃ n st, strlen ce.name = some n ∧ ce.name.take n = name ∧ work name = .ok st ∧
    matchStat ce st = 0

end SelfGit
