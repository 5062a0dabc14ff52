import SelfGit.Objects

namespace SelfGit
open Foundation
set_option autoImplicit true

def headerWords (entries : Nat) : List Byte :=
  toLE 4 cacheSignature ++ toLE 4 1 ++ toLE 4 entries

/-- `verify_hdr` over the mapped file, whose header is there to be read. -/
def verifyHdr (L : Lib) (map : List Byte) : Int :=
  if (wordAt map 0).toNat ≠ cacheSignature then -1
  else if wordAt map 4 ≠ 1 then -1
  else if (L.sha1 (map.take 12 ++ map.drop headerSize)).toList ≠ (map.drop 12).take 20 then -1
  else 0

/-- The filling loop of `read_cache`: the slots it fills and the offset it ends at. A record that
runs past the file leaves a pointer that may not be followed. -/
def fillCache (map : List Byte) (alloc : Nat) :
    Nat → Nat → Nat → Option (List (Option CacheEntry) × Nat)
  | 0, _, offset => some ([], offset)
  | rounds + 1, i, offset =>
    if i < alloc ∧ offset + nameOffset ≤ map.length then
      let ce := map.drop offset
      (fillCache map alloc rounds (i + 1)
        (offset + cacheEntrySize (namelenAt ce).toNat)).map fun r => (entryOf ce :: r.1, r.2)
    else none

/-- `read_cache` once the file is mapped. -/
def loadCache (L : Lib) (c : Cache) (map : List Byte) : Option (Int × Cache) :=
  if verifyHdr L map < 0 then some (-1, c)
  else
    let activeNr := (wordAt map 8).toNat
    let activeAlloc := allocNr activeNr
    (fillCache map activeAlloc activeNr 0 headerSize).map fun r =>
      (toInt activeNr,
        { activeCache := r.1 ++ List.replicate (activeAlloc - activeNr) none
          activeNr := activeNr
          activeAlloc := activeAlloc })

/-- A file no longer than its header is not mapped, and its header then read through null. -/
def readCache (L : Lib) (c : Cache) : Proc (Int × Cache) := do
  if c.activeCache ≠ [] then return (-1, c)
  else if ← accessDir L.objectDirectory then
    match ← openRead indexPath with
    | .error e => return (if e = .ENOENT then 0 else -1, c)
    | .ok fd =>
      match ← fstat fd with
      | none => return (-1, c)
      | some st =>
        if st.stSize.toNat > headerSize then
          match ← mmap fd st.stSize.toNat with
          | none => return (-1, c)
          | some map => defined (loadCache L c map)
        else Prog.halt .fault
  else return (-1, c)

def blocksOf : Nat → List (Option CacheEntry) → Option (List (List Byte))
  | 0, _ => some []
  | n + 1, some ce :: slots => (blocksOf n slots).map (ce.block :: ·)
  | _ + 1, _ => none

def cacheHeader (L : Lib) (entries : Nat) (blocks : List (List Byte)) : List Byte :=
  headerWords entries ++ (L.sha1 (headerWords entries ++ blocks.flatten)).toList

/-- Write pieces one by one; any count but the full one is a failure. -/
def writePieces (fd : Fd) : List (List Byte) → Proc Int
  | [] => return 0
  | b :: bs => do
    let n ← write fd b
    if n ≠ b.length then return -1 else writePieces fd bs

def writeCache (L : Lib) (fd : Fd) (c : Cache) : Proc Int := do
  let entries := toInt c.activeNr
  let blocks ← defined (blocksOf entries.toNat c.activeCache)
  writePieces fd (cacheHeader L c.activeNr blocks :: blocks)

/-- The file that holds the given entries. -/
def cacheImage (L : Lib) (es : List CacheEntry) : List Byte :=
  cacheHeader L es.length (es.map CacheEntry.block) ++ (es.map CacheEntry.block).flatten

end SelfGit
