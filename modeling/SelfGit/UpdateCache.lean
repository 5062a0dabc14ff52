import SelfGit.Index

namespace SelfGit
open Foundation
set_option autoImplicit true

/-- The loop of `verify_path`. The flag tells whether the next character starts a component, where
the jump into the loop begins; the end of the list is the NUL. -/
def verifyPathLoop : Bool → List Byte → Bool
  | true, [] => false
  | true, c :: path => if c ≠ 47 ∧ c ≠ 46 ∧ c ≠ 0 then verifyPathLoop false path else false
  | false, [] => true
  | false, c :: path =>
    if c = 0 then true
    else if c = 47 then verifyPathLoop true path
    else verifyPathLoop false path

def verifyPath (path : CStr) : Bool := verifyPathLoop true path.1

/-- The result of `index_fd` and the entry with the hash filled in. -/
def indexFd (L : Lib) (namelen : Nat) (ce : CacheEntry) (fd : Fd) (st : Stat) :
    Proc (Int × CacheEntry) := do
  let maxOutBytes := toInt (namelen + st.stSize.toNat + 200 : Nat)
  -- the request is a `size_t`, so a negative one is far too large
  let out ← malloc (maxOutBytes % 2 ^ 64).toNat
  match ← mmap fd st.stSize.toNat with
  | none => return (-1, ce)
  | some content =>
    if out then
      let metadata := str "blob " ++ numeral 10 st.stSize.toNat ++ [0]
      let pieces := [metadata, content.take (st.stSize.toNat % 2 ^ 32)]
      let out := deflateInto L pieces maxOutBytes
      let r ← writeSha1Buffer L (L.sha1 out) out
      return (r, { ce with sha1 := L.sha1 out })
    else return (-1, ce)

theorem newEntry_room (path : CStr) : cacheEntrySize (UInt16.ofNat path.1.length).toNat ≤
    nameOffset + (path.1 ++
      List.replicate (cacheEntrySize path.1.length - nameOffset - path.1.length) 0).length := by
  simp only [UInt16.toNat_ofNat', List.length_append, List.length_replicate, cacheEntrySize,
    nameOffset]
  omega

/-- The entry `add_file_to_cache` allocates and fills from the file's status. -/
def newEntry (path : CStr) (st : Stat) : CacheEntry where
  ctime := ⟨st.ctimeSec.toUInt32, st.ctimeNsec.toUInt32⟩
  mtime := ⟨st.mtimeSec.toUInt32, st.mtimeNsec.toUInt32⟩
  stDev := st.stDev.toUInt32
  stIno := st.stIno.toUInt32
  stMode := st.stMode.toUInt32
  stUid := st.stUid.toUInt32
  stGid := st.stGid.toUInt32
  stSize := st.stSize.toUInt32
  sha1 := List.Vector.replicate 20 0
  namelen := UInt16.ofNat path.1.length
  name := path.1 ++ List.replicate (cacheEntrySize path.1.length - nameOffset - path.1.length) 0
  room := newEntry_room path

def addFileToCache (L : Lib) (c : Cache) (path : CStr) : Proc (Int × Cache) := do
  match ← openRead path.1 with
  | .error e =>
    if e = .ENOENT then
      let c' ← defined (removeFileFromCache c path.1)
      let r ← noReturn c path.1
      return (r, c')
    else return (-1, c)
  | .ok fd =>
    match ← fstat fd with
    | none => return (-1, c)
    | some st =>
      let (r, ce) ← indexFd L path.1.length (newEntry path st) fd st
      if r < 0 then return (-1, c)
      else
        let c' ← defined (addCacheEntry c ce)
        return (0, c')

/-- The loop over the command line, and whether it ran to its end. -/
def addPaths (L : Lib) : List CStr → Cache → Proc (Bool × Cache)
  | [], c => return (true, c)
  | path :: rest, c =>
    if verifyPath path then do
      let (r, c) ← addFileToCache L c path
      if r ≠ 0 then return (false, c) else addPaths L rest c
    else addPaths L rest c

/-- The end of `update_cache` behind the label `out`, which has no return statement. -/
def giveUp (c : Cache) : Proc (Option Int × Cache) := do
  let _ ← unlink lockPath
  return (none, c)

/-- `write_cache` and `rename`, and what follows when one of them fails. -/
def installCache (L : Lib) (fd : Fd) (c : Cache) : Proc (Option Int × Cache) := do
  let w ← writeCache L fd c
  if w = 0 then
    if ← rename lockPath indexPath then return (some 0, c) else giveUp c
  else giveUp c

/-- The value returned, if any, and the cache in memory at the end. -/
def updateCache (L : Lib) (argv : List CStr) : Proc (Option Int × Cache) := do
  let (entries, c) ← readCache L Cache.null
  if entries < 0 then return (some (-1), c)
  else
    match ← openExcl lockPath with
    | .error _ => return (some (-1), c)
    | .ok fd =>
      let (ok, c) ← addPaths L (argv.drop 1) c
      if ok then installCache L fd c else giveUp c

theorem fits_of_lt_pathMax (h : n < pathMax) : n < 2 ^ 16 := Nat.lt_trans h (by decide)

theorem newEntry_namelen (st : Stat) (hp : p.1.length < 2 ^ 16) :
    (newEntry p st).namelen.toNat = p.1.length := by
  simp only [newEntry, UInt16.toNat_ofNat', Nat.mod_eq_of_lt hp]

theorem newEntry_key (hp : p.1.length < 2 ^ 16) :
    CacheEntry.key { newEntry p st with sha1 := s } = p.1 := by
  have hl := newEntry_namelen st hp
  simp only [CacheEntry.key, hl]
  simp only [newEntry, List.take_left' rfl]

end SelfGit
