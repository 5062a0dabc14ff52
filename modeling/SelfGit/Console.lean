import SelfGit.Command
import SelfGit.CommitTerms
import SelfGit.Foundation.Laws
import SelfGit.Foundation.Protocols
import SelfGit.InitDb
import SelfGit.Lookup
import SelfGit.ShowDiff

namespace SelfGit
open Foundation
set_option autoImplicit true

/-- What a `git` process asks for, with a mark that a handler is entered, and one that `write_tree`
has put the given entries into a tree. -/
inductive GitOp where
  | console (o : ShowOp)
  | directory (o : DirOp)
  | mkstemp (template : List Byte)
  | fill (name : Path) (buf : List Byte)
  | enter (handler : Handler) (argv : List CStr)
  | treeOf (es : List CacheEntry)

def GitOp.Res : GitOp → Type
  | .console o => o.Res
  | .directory o => o.Res
  | .mkstemp _ => Except Errno Path
  | .fill _ _ => Int
  | .enter _ _ => Unit
  | .treeOf _ => Unit

abbrev GitProc := Prog GitOp GitOp.Res Stop

/-- What does not change while a process runs. The input is there for the one call of `commit` that
can get as far as reading it. -/
structure Env where
  lib : Lib
  posix : Bool
  surroundings : Surroundings

namespace Console

def onConsole (p : ShowProc α) : GitProc α :=
  p.embed GitOp.console fun (o : ShowOp) (r : o.Res) => r
def sys (p : Proc α) : GitProc α :=
  p.embed (fun o => GitOp.console (.sys o)) fun (o : Op) (r : o.Res) => r
def inDirectories (p : DirProc α) : GitProc α :=
  p.embed GitOp.directory fun (o : DirOp) (r : o.Res) => r
def say (text : List Byte) : GitProc Unit := Prog.ask (GitOp.console (.printf text))
def mkstemp (template : List Byte) : GitProc (Except Errno Path) := Prog.ask (GitOp.mkstemp template)
def fill (name : Path) (buf : List Byte) : GitProc Int := Prog.ask (GitOp.fill name buf)
def enter (h : Handler) (argv : List CStr) : GitProc Unit := Prog.ask (GitOp.enter h argv)
def treeOf (es : List CacheEntry) : GitProc Unit := Prog.ask (GitOp.treeOf es)

theorem sys_bind (p : Proc α) (f : α → Proc β) :
    sys (p >>= f) = sys p >>= fun a => sys (f a) := Prog.embed_bind _ _ p f

theorem sys_defined (a : Option α) : sys (defined a) = Prog.ofOption .fault a :=
  Prog.embed_ofOption _ _ _ a

theorem onConsole_bind (p : ShowProc α) (f : α → ShowProc β) :
    onConsole (p >>= f) = onConsole p >>= fun a => onConsole (f a) := Prog.embed_bind _ _ p f

theorem onConsole_ofOption (e : Stop) (a : Option α) :
    onConsole (Prog.ofOption e a) = Prog.ofOption e a := Prog.embed_ofOption _ _ e a

theorem onConsole_onRepo (p : Proc α) : onConsole (onRepo p) = sys p := Prog.embed_embed _ _ _ _ p

def sayAll : List (List Byte) → GitProc Unit
  | [] => return ()
  | t :: ts => do
    say t
    sayAll ts

/-- `update_cache` in a process that has the given cache. -/
def updateCache (L : Lib) (argv : List CStr) (c : Cache) : Proc (Option Int × Cache) := do
  let (entries, c) ← readCache L c
  if entries < 0 then return (some (-1), c)
  else
    match ← openExcl lockPath with
    | .error _ => return (some (-1), c)
    | .ok fd =>
      let (ok, c) ← addPaths L (argv.drop 1) c
      if ok then installCache L fd c else giveUp c

theorem updateCache_null (L : Lib) (argv : List CStr) :
    Console.updateCache L argv Cache.null = SelfGit.updateCache L argv := rfl

/-- `write_sha1_file` with the id that it prints. -/
def writeSha1File (L : Lib) (buf : List Byte) (len : Nat) : GitProc (Int × Sha1) := do
  let (r, sha1) ← sys (SelfGit.writeSha1File L buf len)
  if r < 0 then return (-1, sha1)
  else
    say (sha1ToHex sha1.toList ++ str "\n")
    return (0, sha1)

def writeTree (L : Lib) (sha1 : List Byte) (c : Cache) : GitProc (List Byte × Cache) := do
  let (entries, c) ← sys (readCache L c)
  if entries ≤ 0 then Prog.halt (.exit 1)
  else
    let (buffer, len) ← sys (buildTree L entries.toNat c)
    treeOf (c.activeCache.take entries.toNat).reduceOption
    let (_, hash) ← writeSha1File L buffer len
    return ((strcpy sha1 hash.toList).1, c)

def commitTree (L : Lib) (argv : List CStr) (w : Surroundings) (treeSha1 : List Byte) :
    GitProc Int := do
  match collectParents 0 (parentArgs (argv.drop 2)) with
  | .error e => Prog.halt e
  | .ok parents =>
    match w.passwd with
    | none => Prog.halt (.exit 1)
    | some pw =>
      let (author, committer) ← Prog.ofOption .fault (signatures w pw)
      let ((buffer, size), inside) ← Prog.ofOption .fault
        (commitBuffer treeSha1 parents author committer w.stdin)
      if inside then
        let _ ← writeSha1File L buffer size
        return 0
      else Prog.halt .fault

def commit (L : Lib) (argv : List CStr) (w : Surroundings) (c : Cache) : GitProc Cache := do
  let sha1 ← sys (memory 20)
  let (sha1, c) ← writeTree L sha1 c
  let _ ← commitTree L argv w sha1
  return c

def showDiff (E : Env) (c : Cache) : ShowProc Cache := do
  let (entries, c) ← onRepo (readCache E.lib c)
  if entries < 0 then Prog.halt (.exit 1)
  else
    showEntries E.lib entries.toNat c.activeCache
    return c

/-- The loop of `status` over the words from the third on. -/
def statusLoop (entries : Nat) (c : Cache) : List CStr → GitProc Unit
  | [] => return ()
  | path :: rest =>
    if verifyPath path then do
      let found ← Prog.ofOption .fault (scanCache entries c.activeCache path.1)
      say (path.1 ++ (if found then str " has been added to cache!\n"
        else str " has not been added!\n"))
      statusLoop entries c rest
    else statusLoop entries c rest

def status (L : Lib) (argv : List CStr) (c : Cache) : GitProc (Int × Cache) := do
  say (str "cache entry status:\n")
  say (str "\n")
  let (entries, c) ← sys (readCache L c)
  if entries < 0 then return (-1, c)
  else
    statusLoop entries.toNat c (argv.drop 2)
    return (0, c)

/-- `%d`. -/
def decimal (n : Int) : List Byte :=
  if n < 0 then 45 :: numeral 10 (-n).toNat else numeral 10 n.toNat

/-- The names of the first entries, one a line. -/
def sayNames : Nat → List (Option CacheEntry) → GitProc Unit
  | 0, _ => return ()
  | n + 1, some ce :: slots => do
    let k ← Prog.ofOption .fault (strlen ce.name)
    say (ce.name.take k ++ str "\n")
    sayNames n slots
  | _ + 1, _ => Prog.halt .fault

def removeFileFromCache (L : Lib) (path : Path) (c : Cache) : GitProc Cache := do
  let (pos, c) ← sys (Remove.cacheNamePos L c path path.length)
  say (decimal pos ++ str "\n")
  if pos < 0 then
    let slots ← Prog.ofOption .fault
      (Remove.shiftDown c.activeNr c.activeCache ((-pos - 1).toNat + 1) c.activeNr)
    return { c with activeCache := slots, activeNr := (c.activeNr + 2 ^ 32 - 1) % 2 ^ 32 }
  else return c

def removeFunction (L : Lib) (argv : List CStr) (c : Cache) : GitProc Cache := do
  match argv[2]? with
  | none => Prog.halt .fault
  | some path =>
    let c ← removeFileFromCache L path.1 c
    sayNames c.activeNr c.activeCache
    return c

/-- The id that a word spells, as `get_sha1_hex` reads it. -/
def idOf (word : CStr) : Option Sha1 :=
  if (getSha1Hex word.1).2 then
    if h : (getSha1Hex word.1).1.length = 20 then some ⟨(getSha1Hex word.1).1, h⟩ else none
  else none

def template : List Byte := str "temp_git_file_XXXXXX"

def catFile (L : Lib) (argv : List CStr) : GitProc Unit := do
  match argv with
  | [_, _, word] =>
    match idOf word with
    | none => Prog.halt (.exit 1)
    | some sha1 =>
      match ← sys (readSha1File L sha1) with
      | none => Prog.halt (.exit 1)
      | some (type, size, buf) =>
        match ← mkstemp template with
        | .error _ => Prog.halt (.exit 1)
        | .ok name =>
          let n ← fill name buf
          let type := if n ≠ size then str "bad" else type
          say (name ++ str ": " ++ type ++ str "\n")
  | _ => Prog.halt (.exit 1)

/-- `%o %s (%s)`. -/
def recordLine (r : TreeRecord) : List Byte :=
  numeral 8 r.mode.toNat ++ str " " ++ r.path ++ str " (" ++ sha1ToHex r.sha1 ++ str ")\n"

def unpack (L : Lib) (sha1 : Sha1) : GitProc Unit := do
  match ← sys (readSha1File L sha1) with
  | none => Prog.halt (.exit 1)
  | some (type, _, buffer) =>
    if type = str "tree" then
      sayAll ((unpackLoop buffer (buffer.length + 1) 0).1.map recordLine)
      match (unpackLoop buffer (buffer.length + 1) 0).2 with
      | .done => return ()
      | .corrupt => Prog.halt (.exit 1)
      | _ => Prog.halt .fault
    else Prog.halt (.exit 1)

def readTree (L : Lib) (argv : List CStr) : GitProc Unit := do
  match argv with
  | [_, _, word] =>
    match idOf word with
    | none => Prog.halt (.exit 1)
    | some sha1 => unpack L sha1
  | _ => Prog.halt (.exit 1)

end Console

/-- The body of a handler, in a process that has the given cache, and the cache it leaves. -/
def Handler.body (E : Env) (argv : List CStr) (c : Cache) : Handler → GitProc Cache
  | .init => do
    let _ ← Console.inDirectories (SelfGit.init E.lib.dbEnvironment)
    return c
  | .status => do
    let (_, c) ← Console.status E.lib argv c
    return c
  | .updateCache => do
    let (_, c) ← Console.sys (Console.updateCache E.lib argv c)
    return c
  | .showDiff => Console.onConsole (Console.showDiff E c)
  | .commit => Console.commit E.lib argv E.surroundings c
  | .removeFunction => Console.removeFunction E.lib argv c
  | .catFile => do
    Console.catFile E.lib argv
    return c
  | .readTree => do
    Console.readTree E.lib argv
    return c

def Handler.run (E : Env) (argv : List CStr) (c : Cache) (h : Handler) : GitProc Cache := do
  Console.enter h argv
  h.body E argv c

/-- Do what `main` does, one thing after the other. -/
def perform (E : Env) : List Action → Cache → GitProc Cache
  | [], c => return c
  | .print t :: actions, c => do
    Console.say t
    perform E actions c
  | .call h argv :: actions, c => do
    let c ← h.run E argv c
    perform E actions c

/-- The loop of `main`, with the handlers run where they are called. -/
def gitLoop (E : Env) : Nat → Getopt CStr → Cache → GitProc Int
  | 0, _, _ => Prog.halt .fault
  | fuel + 1, g, c =>
    match nextOption E.posix g with
    | (none, g) => do
      let _ ← perform E ((g.argv.drop g.optind).map nonOptionArgument) c
      return 0
    | (some (ch, optarg), g) => do
      let c ← perform E (dispatch g.argv ch (optarg.getD [])).1 c
      if (dispatch g.argv ch (optarg.getD [])).2 then return 1 else gitLoop E fuel g c

/-- A whole `git` process. -/
def git (E : Env) (argv : List CStr) : GitProc Int :=
  gitLoop E ((Getopt.start argv).left Subtype.val + 1) (Getopt.start argv) Cache.null

theorem perform_append (E : Env) (as bs : List Action) (c : Cache) :
    perform E (as ++ bs) c = perform E as c >>= perform E bs := by
  induction as generalizing c with
  | nil => exact (pure_bind c _).symm
  | cons a as ih =>
    cases a with
    | call h argv => simp only [List.cons_append, perform, ih, bind_assoc]
    | print t => simp only [List.cons_append, perform, ih, bind_assoc]

theorem gitLoop_perform {g : Getopt CStr} (E : Env)
    (h : mainLoop E.posix fuel g = some (actions, code)) (c : Cache) :
    gitLoop E fuel g c = perform E actions c >>= fun _ => pure code := by
  induction fuel generalizing g c actions code with
  | zero => cases h
  | succ fuel ih =>
    rcases hn : nextOption E.posix g with ⟨_ | ⟨ch, optarg⟩, g'⟩
    · simp only [mainLoop, hn] at h
      cases h
      simp only [gitLoop, hn]
    · simp only [mainLoop, hn] at h
      simp only [gitLoop, hn]
      by_cases hreturns : (dispatch g'.argv ch (optarg.getD [])).2 = true
      · rw [if_pos hreturns] at h
        cases h
        simp only [hreturns, ↓reduceIte]
      · rw [if_neg hreturns] at h
        obtain ⟨⟨rest, code'⟩, hrest, heq⟩ := Option.map_eq_some_iff.1 h
        cases heq
        simp only [hreturns, Bool.false_eq_true, ↓reduceIte]
        rw [perform_append, bind_assoc]
        exact bind_congr fun c' => ih hrest c'

theorem main_ends_always (posix : Bool) (argv : List CStr) : ∃ r, main posix argv = some r := by
  cases argv with
  | nil =>
    cases posix with
    | false => exact ⟨_, rfl⟩
    | true => exact ⟨_, rfl⟩
  | cons w words => exact main_ends posix (List.cons_ne_nil w words)

/-- A process does what `main` says it does, with the cache handed from handler to handler. -/
theorem git_perform (E : Env) (argv : List CStr) : ∃ actions code,
    main E.posix argv = some (actions, code) ∧
      git E argv = perform E actions Cache.null >>= fun _ => pure code := by
  obtain ⟨⟨actions, code⟩, hmain⟩ := main_ends_always E.posix argv
  exact ⟨actions, code, hmain, gitLoop_perform E hmain Cache.null⟩

def gitCalls (posix : Bool) (argv : List CStr) : List (Handler × List CStr) :=
  match main posix argv with
  | some (actions, _) => handlerCalls actions
  | none => []

end SelfGit
