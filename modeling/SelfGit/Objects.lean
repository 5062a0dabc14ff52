import SelfGit.System

namespace SelfGit
open Foundation
set_option autoImplicit true

/-- A string as `argv`, `getenv` and the like hand it out: without its terminating NUL. -/
abbrev CStr := {s : List Byte // 0 ∉ s}

/-- How inflating ends: at the end of the stream, for want of more of it, or on corrupt data. -/
inductive InflateEnd where
  | streamEnd
  | needMore
  | dataError
  deriving DecidableEq

/-- The compression library. `atEdge` tells whether `inflate` already reports the end when its
output just fits the room given. -/
structure Zlib where
  deflate : List (List Byte) → List Byte
  deflateBound : Nat → Nat
  inflate : List Byte → List Byte × InflateEnd
  atEdge : List Byte → Bool

/-- What the documentation of the library promises: inflating undoes a complete stream, the bound
is one, and a cut stream yields a prefix and asks for more. -/
structure Zlib.Lossless (z : Zlib) : Prop where
  inverse : ∀ ps, z.inflate (z.deflate ps) = (ps.flatten, .streamEnd)
  bound : ∀ ps, (z.deflate ps).length ≤ z.deflateBound ps.flatten.length
  cut : ∀ ps k, k < (z.deflate ps).length →
    (z.inflate ((z.deflate ps).take k)).1 <+: ps.flatten ∧
      (z.inflate ((z.deflate ps).take k)).2 = .needMore

/-- The libraries a process is linked with, and `getenv(DB_ENVIRONMENT)`. -/
structure Lib where
  sha1 : List Byte → Sha1
  zlib : Zlib
  dbEnvironment : Option CStr

def Lib.objectDirectory (L : Lib) : Path :=
  match L.dbEnvironment with
  | some d => d.1
  | none => str ".dircache/objects"

def hexval (c : Byte) : UInt32 :=
  if 48 ≤ c ∧ c ≤ 57 then c.toUInt32 - 48
  else if 97 ≤ c ∧ c ≤ 102 then c.toUInt32 - 97 + 10
  else if 65 ≤ c ∧ c ≤ 70 then c.toUInt32 - 65 + 10
  else ~~~0

/-- The bytes stored before the loop ends, and whether it ran to its end. -/
def getSha1HexLoop : Nat → List Byte → List Byte × Bool
  | 0, _ => ([], true)
  | n + 1, hex =>
    let val := (hexval (hex.getD 0 0) <<< 4) ||| hexval (hex.getD 1 0)
    if val &&& ~~~0xff ≠ 0 then ([], false)
    else
      let rest := getSha1HexLoop n (hex.drop 2)
      (val.toUInt8 :: rest.1, rest.2)

def getSha1Hex (hex : List Byte) : List Byte × Bool := getSha1HexLoop 20 hex

def hexDigit (n : Byte) : Byte := (str "0123456789abcdef").getD n.toNat 0

def hexByte (b : Byte) : List Byte := [hexDigit (b >>> 4), hexDigit (b &&& 0xf)]

def sha1ToHex (sha1 : List Byte) : List Byte := sha1.flatMap hexByte

/-- The part of the static buffer from `name` on, before the first name is written into it. -/
def nameBuffer : List Byte := [0, 0, 47] ++ List.replicate 56 0

def fillName (sha1 : List Byte) (name : List Byte) : List Byte :=
  (List.range 20).foldl (fun name i =>
    let val := sha1.getD i 0
    let pos := i * 2 + (if i > 0 then 1 else 0)
    (name.set pos (hexDigit (val >>> 4))).set (pos + 1) (hexDigit (val &&& 0xf))) name

def sha1FileName (L : Lib) (sha1 : Sha1) : Path :=
  (L.objectDirectory ++ 47 :: fillName sha1.toList nameBuffer).takeWhile (· ≠ 0)

/-- An existing object is taken to be the one wanted; the count of the write is not looked at. -/
def writeSha1Buffer (L : Lib) (sha1 : Sha1) (buf : List Byte) : Proc Int := do
  match ← openExcl (sha1FileName L sha1) with
  | .error e => return if e = .EEXIST then 0 else -1
  | .ok fd =>
    let _ ← write fd buf
    return 0

/-- The output of the `deflate` loop. A negative size makes `malloc` fail. -/
def deflateInto (L : Lib) (pieces : List (List Byte)) (size : Int) : List Byte :=
  (L.zlib.deflate pieces).take size.toNat

/-- The result and the hash left in `sha1`. -/
def writeSha1File (L : Lib) (buf : List Byte) (len : Nat) : Proc (Int × Sha1) := do
  let size := toInt (L.zlib.deflateBound len)
  let compressed := deflateInto L [buf.take len] size
  let sha1 := L.sha1 compressed
  let r ← writeSha1Buffer L sha1 compressed
  return (if r < 0 then -1 else 0, sha1)

/-- `sscanf(buffer, "%10s %lu", type, size)` with both conversions made. -/
def scanHeader (s : List Byte) : Option (List Byte × Nat) := do
  let (type, s) ← scanWord 10 s
  let (size, _) ← scanUnsigned 10 s
  some (type, size)

/-- The first call of `inflate` returns `Z_OK`, with room for 8192 bytes. -/
def firstInflateOk (z : Zlib) (map out : List Byte) (fin : InflateEnd) : Bool :=
  if 8192 < out.length then true
  else if out.length = 8192 ∧ z.atEdge map = false then true
  else fin = .needMore

/-- The part of `read_sha1_file` after the header is parsed. -/
def fillObject (out buffer heap : List Byte) (ok : Bool) (bytes size : Nat) :
    Option (List Byte) :=
  let total := min out.length 8192
  -- the length of the copy is unsigned, and it has to fit the block
  if total < bytes ∨ size < total - bytes then none
  else
    let bytes' := total - bytes
    let buf := (buffer.drop bytes).take bytes' ++ heap.drop bytes'
    if bytes' < size ∧ ok = true then
      let more := (out.drop total).take ((size - bytes') % 2 ^ 32)
      some (buf.take bytes' ++ more ++ buf.drop (bytes' + more.length))
    else some buf

/-- `type`, `*size` and the buffer returned, or a null pointer. -/
def readSha1File (L : Lib) (sha1 : Sha1) : Proc (Option (List Byte × Nat × List Byte)) := do
  match ← openRead (sha1FileName L sha1) with
  | .error _ => return none
  | .ok fd =>
    match ← fstat fd with
    | none => return none
    | some st =>
      match ← mmap fd st.stSize.toNat with
      | none => return none
      | some map =>
        let stack ← memory 8192
        let input := map.take (st.stSize.toNat % 2 ^ 32)
        let out := (L.zlib.inflate input).1
        let ok := firstInflateOk L.zlib input out (L.zlib.inflate input).2
        let buffer := out.take 8192 ++ stack.drop (min out.length 8192)
        let n ← defined (strlen buffer)
        match scanHeader (buffer.take n) with
        | none => return none
        | some (type, size) =>
          if ← malloc size then
            let heap ← memory size
            let buf ← defined (fillObject out buffer heap ok (n + 1) size)
            return some (type, size, buf)
          else return none

end SelfGit
