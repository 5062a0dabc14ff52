import SelfGit.Tree

namespace SelfGit
open Foundation
set_option autoImplicit true

/-- The loop of `remove_special`, in place: it reads at `p` and stores at `dst`. -/
def removeSpecialLoop : Nat → List Byte → Nat → Nat → Option (List Byte)
  | 0, _, _, _ => none
  | fuel + 1, mem, p, dst =>
    match mem[p]? with
    | none => none
    | some c =>
      if c = 10 ∨ c = 60 ∨ c = 62 then removeSpecialLoop fuel mem (p + 1) dst
      else if c = 0 then some (mem.set dst c)
      else removeSpecialLoop fuel (mem.set dst c) (p + 1) (dst + 1)

def removeSpecial (mem : List Byte) : Option (List Byte) := removeSpecialLoop mem.length mem 0 0

/-- The string at the start of some memory. -/
def stringAt (mem : List Byte) : List Byte := mem.takeWhile (· ≠ 0)

structure Passwd where
  pwName : CStr
  pwGecos : CStr

/-- What `commit_tree` takes from its surroundings. -/
structure Surroundings where
  passwd : Option Passwd
  hostname : CStr
  ctime : CStr
  committerName : Option CStr
  committerEmail : Option CStr
  committerDate : Option CStr
  stdin : List Byte

structure Signature where
  gecos : List Byte
  email : List Byte
  date : List Byte
  deriving DecidableEq

/-- A string of the environment and its default. They can be the same memory, cleaned twice. -/
def cleanPair (env : Option CStr) (real : List Byte) : Option (List Byte × List Byte) :=
  match env with
  | some s => do
    let a ← removeSpecial (s.1 ++ [0])
    let b ← removeSpecial (real ++ [0])
    some (stringAt a, stringAt b)
  | none => do
    let a ← removeSpecial (real ++ [0])
    let b ← removeSpecial a
    some (stringAt b, stringAt b)

/-- `user@host` in its array of 1000 characters, whose NUL a long host name leaves out. -/
def realEmail (pw : Passwd) (hostname : CStr) : Option (List Byte) :=
  if pw.pwName.1.length + 1 + hostname.1.length + 1 ≤ 1000 then
    some (pw.pwName.1 ++ 64 :: hostname.1)
  else none

/-- The author and the committer. -/
def signatures (w : Surroundings) (pw : Passwd) : Option (Signature × Signature) := do
  let realemail ← realEmail pw w.hostname
  let (gecos, realgecos) ← cleanPair w.committerName pw.pwGecos.1
  let (email, realemail) ← cleanPair w.committerEmail realemail
  let (date, realdate) ← cleanPair w.committerDate w.ctime.1
  some (⟨gecos, email, date⟩, ⟨realgecos, realemail, realdate⟩)

/-- The operands that `commit_tree` looks at: every second one from the third word on. -/
def parentArgs : List CStr → List CStr
  | [] => []
  | [p] => [p]
  | p :: _ :: rest => p :: parentArgs rest

def maxParent : Nat := 16

/-- The rows of `parent_sha1`, from row `parents` on. Nothing keeps the index in the array. -/
def collectParents : Nat → List CStr → Except Stop (List (List Byte))
  | _, [] => .ok []
  | parents, p :: rest =>
    if maxParent ≤ parents ∧ (getSha1Hex p.1).1 ≠ [] then .error .fault
    else if (getSha1Hex p.1).2 = false then .error (.exit 1)
    else (collectParents (parents + 1) rest).map ((getSha1Hex p.1).1 :: ·)

/-- What `fgets` takes of the input: up to `n` characters, and nothing behind a newline. -/
def fgets : Nat → List Byte → List Byte × List Byte
  | 0, s => ([], s)
  | _ + 1, [] => ([], [])
  | n + 1, c :: s => if c = 10 then ([c], s) else (c :: (fgets n s).1, (fgets n s).2)

/-- The pieces in which the comment is read, into an array of 1000 characters. -/
def commentPieces : Nat → List Byte → List (List Byte)
  | 0, _ => []
  | _ + 1, [] => []
  | fuel + 1, c :: s =>
    (fgets 999 (c :: s)).1 :: commentPieces fuel (fgets 999 (c :: s)).2

def treeLine (tree : List Byte) : List Byte := str "tree " ++ sha1ToHex tree ++ [10]

def parentLine (parent : List Byte) : List Byte := str "parent " ++ sha1ToHex parent ++ [10]

def signatureLine (word : List Byte) (s : Signature) : List Byte :=
  word ++ s.gecos ++ str " <" ++ s.email ++ str "> " ++ s.date ++ [10]

def headerLines (tree : List Byte) (parents : List (List Byte)) (author committer : Signature) :
    List (List Byte) :=
  treeLine tree :: parents.map parentLine ++
    [signatureLine (str "author ") author, signatureLine (str "committer ") committer ++ [10]]

/-- The texts that are added one after the other. A piece of the comment goes through `%s`. -/
def commitTexts (tree : List Byte) (parents : List (List Byte)) (author committer : Signature)
    (stdin : List Byte) : List (List Byte) :=
  headerLines tree parents author committer ++
    (commentPieces stdin.length stdin).map stringAt

/-- The memory written so far, its `unsigned` size, its block, and whether stores were inside. -/
structure Buffer where
  mem : List Byte
  size : Nat
  block : Nat
  inside : Bool
  deriving DecidableEq

def blocking : Nat := 2 ^ 14

def initBuffer : Buffer := ⟨List.replicate origOffset 0, origOffset, blocking, true⟩

/-- Round up to a multiple of 32768. -/
def roundUp (n : Nat) : Nat := (n + 32767) / 32768 * 32768

/-- The array `one_line` after `vsnprintf`: the text as far as there is room, and a NUL. -/
def oneLine (text : List Byte) : List (Option Byte) :=
  (text.take 2047).map some ++ some 0 :: List.replicate (2047 - text.length) none

/-- What `memcpy` takes from there: as many bytes as `vsnprintf` returned. -/
def copiedLine (text : List Byte) : Option (List (Option Byte)) :=
  if text.length ≤ (oneLine text).length then some ((oneLine text).take text.length) else none

/-- Whether there is room is decided by the rounded size, not by the size of the block. -/
def addBuffer (b : Buffer) (text : List Byte) : Option Buffer := do
  let copied ← copiedLine text
  let line ← copied.mapM id
  let newsize := b.size + text.length
  let block := if newsize > roundUp b.size then roundUp newsize else b.block
  let mem := if newsize > roundUp b.size then b.mem.take block else b.mem
  some
    { mem := mem.take b.size ++ line ++ mem.drop newsize
      size := newsize % 2 ^ 32
      block := block
      inside := b.inside && decide (newsize ≤ block) }

def finishBuffer (tag : List Byte) (b : Buffer) : Option (List Byte × Nat) := do
  let (mem, offset) ← prependHeader tag b.mem ((b.size + 2 ^ 32 - origOffset) % 2 ^ 32)
  some (mem.drop offset, (b.size + 2 ^ 32 - offset) % 2 ^ 32)

/-- What `commit_tree` hands to `write_sha1_file`, and whether the heap was left alone. -/
def commitBuffer (tree : List Byte) (parents : List (List Byte)) (author committer : Signature)
    (stdin : List Byte) : Option ((List Byte × Nat) × Bool) := do
  let b ← (commitTexts tree parents author committer stdin).foldlM addBuffer initBuffer
  let r ← finishBuffer (str "commit ") b
  some (r, b.inside)

def commitTree (L : Lib) (argv : List CStr) (w : Surroundings) (treeSha1 : List Byte) :
    Proc Int := do
  match collectParents 0 (parentArgs (argv.drop 2)) with
  | .error e => Prog.halt e
  | .ok parents =>
    match w.passwd with
    | none => Prog.halt (.exit 1)
    | some pw =>
      let (author, committer) ← defined (signatures w pw)
      let ((buffer, size), inside) ← defined (commitBuffer treeSha1 parents author committer w.stdin)
      if inside then
        let _ ← writeSha1File L buffer size
        return 0
      else Prog.halt .fault

/-- Neither result is looked at, and there is none of its own. -/
def commit (L : Lib) (argv : List CStr) (w : Surroundings) : Proc Unit := do
  let sha1 ← memory 20
  let (sha1, _) ← writeTree L sha1
  let _ ← commitTree L argv w sha1
  return ()

end SelfGit
