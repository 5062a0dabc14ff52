import SelfGit.Foundation.Interleaving
import SelfGit.Cache

namespace SelfGit
open Foundation
set_option autoImplicit true

inductive Errno where
  | ENOENT
  | EEXIST
  | other
  deriving DecidableEq

/-- An open file: one of the repository, by inode, or one of the working directory. -/
inductive Fd where
  | repo (ino : Nat)
  | work (n : Nat)
  deriving DecidableEq

/-- The fields of `struct stat` that are read. -/
structure Stat where
  stDev : UInt64
  stIno : UInt64
  stMode : UInt64
  stUid : UInt64
  stGid : UInt64
  stSize : UInt64
  ctimeSec : UInt64
  ctimeNsec : UInt64
  mtimeSec : UInt64
  mtimeNsec : UInt64
  deriving DecidableEq

/-- What a process asks of its surroundings: system calls, memory, and the value that is found where
`remove_file_from_cache` ends without returning one. `treeOf` is a mark of `write_tree`. -/
inductive Op where
  | accessDir (path : Path)
  | access (path : Path)
  | openRead (path : Path)
  | openExcl (path : Path)
  | fstat (fd : Fd)
  | mmap (fd : Fd) (len : Nat)
  | write (fd : Fd) (buf : List Byte)
  | rename (src dst : Path)
  | unlink (path : Path)
  | malloc (n : Nat)
  | memory (n : Nat)
  | noReturn (c : Cache) (path : Path)
  | treeOf (es : List CacheEntry)

def Op.Res : Op → Type
  | .accessDir _ => Bool
  | .access _ => Bool
  | .openRead _ => Except Errno Fd
  | .openExcl _ => Except Errno Fd
  | .fstat _ => Option Stat
  | .mmap _ _ => Option (List Byte)
  | .write _ _ => Int
  | .rename _ _ => Bool
  | .unlink _ => Bool
  | .malloc _ => Bool
  | .memory _ => List Byte
  | .noReturn _ _ => Int
  | .treeOf _ => Unit

/-- How a process ends other than by returning: `exit`, or undefined behaviour. -/
inductive Stop where
  | exit (code : Int)
  | fault
  deriving DecidableEq

abbrev Proc := Prog Op Op.Res Stop

def accessDir (path : Path) : Proc Bool := Prog.ask (Op.accessDir path)
def access (path : Path) : Proc Bool := Prog.ask (Op.access path)
def openRead (path : Path) : Proc (Except Errno Fd) := Prog.ask (Op.openRead path)
def openExcl (path : Path) : Proc (Except Errno Fd) := Prog.ask (Op.openExcl path)
def fstat (fd : Fd) : Proc (Option Stat) := Prog.ask (Op.fstat fd)
def mmap (fd : Fd) (len : Nat) : Proc (Option (List Byte)) := Prog.ask (Op.mmap fd len)
def write (fd : Fd) (buf : List Byte) : Proc Int := Prog.ask (Op.write fd buf)
def rename (src dst : Path) : Proc Bool := Prog.ask (Op.rename src dst)
def unlink (path : Path) : Proc Bool := Prog.ask (Op.unlink path)
def malloc (n : Nat) : Proc Bool := Prog.ask (Op.malloc n)
def memory (n : Nat) : Proc (List Byte) := Prog.ask (Op.memory n)
def noReturn (c : Cache) (path : Path) : Proc Int := Prog.ask (Op.noReturn c path)
def treeOf (es : List CacheEntry) : Proc Unit := Prog.ask (Op.treeOf es)

/-- A pure computation whose failure is undefined behaviour. -/
def defined (a : Option α) : Proc α := Prog.ofOption .fault a

def indexPath : Path := str ".dircache/index"
def lockPath : Path := str ".dircache/index.lock"
def pathMax : Nat := 4096

/-- The files of the repository: names to inodes and inodes to contents. -/
structure FS where
  dir : Path → Option Nat
  data : Nat → List Byte
  next : Nat

def FS.read (fs : FS) (path : Path) : Option (List Byte) := (fs.dir path).map fs.data

/-- No name leads to an inode that is not there yet. -/
def FS.Good (fs : FS) : Prop := ∀ p i, fs.dir p = some i → i < fs.next

/-- A path of `PATH_MAX` bytes or more is refused. The two index files belong to nobody else. -/
def FS.opened (fs : FS) (p : Path) (r : Except Errno Fd) : Option FS :=
  if pathMax ≤ p.length then
    if r = .error .other then some fs else none
  else
    match fs.dir p, r with
    | some i, .ok fd => if fd = .repo i then some fs else none
    | some _, .error e => if e = .ENOENT then none else some fs
    | none, .ok (.work _) => if p = indexPath ∨ p = lockPath then none else some fs
    | none, .ok (.repo _) => none
    | none, .error _ => some fs

def FS.create (fs : FS) (p : Path) : FS where
  dir := Function.update fs.dir p (some fs.next)
  data := Function.update fs.data fs.next []
  next := fs.next + 1

/-- `open` with `O_CREAT | O_EXCL`: atomic, and it fails with `EEXIST` only if the name exists. -/
def FS.created (fs : FS) (p : Path) (r : Except Errno Fd) : Option FS :=
  match r with
  | .ok fd =>
    if fd = .repo fs.next ∧ fs.dir p = none ∧ p.length < pathMax then some (fs.create p) else none
  | .error e => if e = .EEXIST ∧ fs.dir p = none then none else some fs

def FS.statted (fs : FS) (fd : Fd) (r : Option Stat) : Option FS :=
  match fd, r with
  | .repo i, some st => if st.stSize.toNat = (fs.data i).length then some fs else none
  | .work _, some st => if st.stSize.toNat < 2 ^ 63 then some fs else none
  | _, none => some fs

/-- A mapping has the length asked for, which is not zero. -/
def FS.mapped (fs : FS) (fd : Fd) (len : Nat) (r : Option (List Byte)) : Option FS :=
  match fd, r with
  | .repo i, some m =>
    if m = (fs.data i).take len ∧ m.length = len ∧ 0 < len then some fs else none
  | .work _, some m => if m.length = len ∧ 0 < len then some fs else none
  | _, none => some fs

def FS.append (fs : FS) (i : Nat) (buf : List Byte) : FS :=
  { fs with data := Function.update fs.data i (fs.data i ++ buf) }

/-- A write fails, or takes some number of bytes from the front. -/
def FS.written (fs : FS) (fd : Fd) (buf : List Byte) (r : Int) : Option FS :=
  match fd with
  | .repo i =>
    if r = -1 then some fs
    else if 0 ≤ r ∧ r ≤ buf.length then some (fs.append i (buf.take r.toNat))
    else none
  | .work _ => some fs

/-- `rename` is atomic, and a failed one changes nothing. -/
def FS.renamed (fs : FS) (src dst : Path) (r : Bool) : Option FS :=
  match r, fs.dir src with
  | true, some i =>
    some { fs with dir := Function.update (Function.update fs.dir dst (some i)) src none }
  | true, none => none
  | false, _ => some fs

/-- `unlink` succeeds on what exists. -/
def FS.unlinked (fs : FS) (p : Path) (r : Bool) : Option FS :=
  match r, fs.dir p with
  | true, some _ => some { fs with dir := Function.update fs.dir p none }
  | false, none => some fs
  | _, _ => none

/-- The repository after an operation, if the answer is a possible one. -/
def FS.step (fs : FS) : (o : Op) → o.Res → Option FS
  | .accessDir _, _ => some fs
  | .access p, (r : Bool) => if r && (fs.dir p).isNone then none else some fs
  | .openRead p, r => fs.opened p r
  | .openExcl p, r => fs.created p r
  | .fstat fd, r => fs.statted fd r
  | .mmap fd len, r => fs.mapped fd len r
  | .write fd buf, r => fs.written fd buf r
  | .rename src dst, r => fs.renamed src dst r
  | .unlink p, r => fs.unlinked p r
  | .malloc n, (r : Bool) => if r && decide (2 ^ 63 ≤ n) then none else some fs
  | .memory n, (r : List Byte) => if r.length = n then some fs else none
  | .noReturn _ _, _ => some fs
  | .treeOf _, _ => some fs

def FS.empty : FS := ⟨fun _ => none, fun _ => [], 0⟩

theorem FS.empty_good : FS.empty.Good := fun _ _ h => (by cases h)

abbrev Files := List (Path × List Byte)

def Stat.ofSize (n : Nat) : Stat := ⟨0, 0, 0o100644, 0, 0, UInt64.ofNat n, 0, 0, 0, 0⟩

/-- The answers of an undisturbed machine over a given working directory. -/
def FS.serve (files : Files) (fs : FS) : (o : Op) → o.Res
  | .accessDir _ => true
  | .access p => (fs.dir p).isSome
  | .openRead p =>
    match fs.dir p with
    | some i => .ok (.repo i)
    | none =>
      match files.findIdx? (·.1 = p) with
      | some n => .ok (.work n)
      | none => .error .ENOENT
  | .openExcl p => if fs.dir p = none then .ok (.repo fs.next) else .error .EEXIST
  | .fstat fd =>
    match fd with
    | .repo i => some (.ofSize (fs.data i).length)
    | .work n => some (.ofSize ((files[n]?.map (·.2.length)).getD 0))
  | .mmap fd len =>
    if len = 0 then none
    else
      match fd with
      | .repo i => some ((fs.data i).take len)
      | .work n => files[n]?.map (·.2)
  | .write _ buf => (buf.length : Int)
  | .rename src _ => (fs.dir src).isSome
  | .unlink p => (fs.dir p).isSome
  | .malloc n => decide (n < 2 ^ 63)
  | .memory n => List.replicate n (0 : Byte)
  | .noReturn _ _ => (0 : Int)
  | .treeOf _ => ()

end SelfGit
