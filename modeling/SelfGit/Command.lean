import SelfGit.Foundation.Getopt
import SelfGit.Objects

namespace SelfGit
open Foundation
set_option autoImplicit true

/-- The functions that `main` hands the command line to. -/
inductive Handler where
  | init
  | status
  | updateCache
  | showDiff
  | commit
  | removeFunction
  | catFile
  | readTree
  deriving DecidableEq

/-- What `main` does: it calls a handler with the words in their present order, or prints. -/
inductive Action where
  | call (handler : Handler) (argv : List CStr)
  | print (text : List Byte)

def handlerCalls : List Action → List (Handler × List CStr)
  | [] => []
  | .call handler argv :: actions => (handler, argv) :: handlerCalls actions
  | .print _ :: actions => handlerCalls actions

def opts : List LongOption :=
  [⟨str "init", .noArgument, 105⟩, ⟨str "status", .requiredArgument, 115⟩,
    ⟨str "diff", .noArgument, 100⟩, ⟨str "add", .requiredArgument, 97⟩,
    ⟨str "commit", .noArgument, 99⟩, ⟨str "reset", .noArgument, 114⟩,
    ⟨str "rm", .requiredArgument, 109⟩, ⟨str "cat-file", .requiredArgument, 102⟩,
    ⟨str "read-tree", .requiredArgument, 101⟩]

def optstring : List Byte := str "is:da:c:rm:f:e:"

def usage : List Byte :=
  str "Usage : \n--init : init a git repository\n" ++
    str "--status : current status of git repository\n--add : add file to cache\n" ++
    str "--commit : commit cache into commit history\n--reset : reset commit\n" ++
    str "--rm : remove file from cache\n"

/-- The cases of the switch, and whether `main` returns. Behind `read_tree` a break is missing. -/
def dispatch (argv : List CStr) (c : Byte) (optarg : List Byte) : List Action × Bool :=
  match c with
  | 105 => ([.call .init argv, .print (str "Reinitialized existing Git repository!\n")], false)
  | 115 => ([.call .status argv, .print (str "On branch master\n")], false)
  | 97 => ([.call .updateCache argv, .print (optarg ++ str " is added to cache!\n")], false)
  | 100 => ([.call .showDiff argv], false)
  | 99 => ([.call .commit argv, .print (str "Completed to commmit!\n")], false)
  | 114 => ([.print (str "Completed to Reset!\n")], false)
  | 109 => ([.call .removeFunction argv, .print (optarg ++ str " has been removed!\n")], false)
  | 102 => ([.call .catFile argv], false)
  | 101 => ([.call .readTree argv, .print usage], true)
  | 63 => ([.print usage], true)
  | _ => ([], false)

def nonOptionArgument (word : CStr) : Action :=
  .print (str "Non-option argument " ++ word.1 ++ str "\n")

abbrev nextOption (posix : Bool) (g : Getopt CStr) :=
  g.getoptLong Subtype.val posix optstring opts

/-- The loop of `main`, as long as every handler returns: what is done, and the status. -/
def mainLoop (posix : Bool) : Nat → Getopt CStr → Option (List Action × Int)
  | 0, _ => none
  | fuel + 1, g =>
    match nextOption posix g with
    | (none, g) => some ((g.argv.drop g.optind).map nonOptionArgument, 0)
    | (some (c, optarg), g) =>
      let (actions, returns) := dispatch g.argv c (optarg.getD [])
      if returns then some (actions, 1)
      else (mainLoop posix fuel g).map fun r => (actions ++ r.1, r.2)

/-- Every call of `getopt_long` that finds an option leaves less to scan, so the fuel lasts. -/
def main (posix : Bool) (argv : List CStr) : Option (List Action × Int) :=
  mainLoop posix ((Getopt.start argv).left Subtype.val + 1) (Getopt.start argv)

theorem mainLoop_ends {g : Getopt CStr} (posix : Bool) (h : g.Sound)
    (hf : g.left Subtype.val < fuel) : ∃ r, mainLoop posix fuel g = some r := by
  induction fuel generalizing g with
  | zero => omega
  | succ fuel ih =>
    rw [mainLoop]
    split
    · exact ⟨_, rfl⟩
    · rename_i c optarg g' hn
      obtain ⟨hs, hleft⟩ := Getopt.getoptLong_left h hn
      obtain ⟨r, hr⟩ := ih hs (by omega)
      dsimp only
      split
      · exact ⟨_, rfl⟩
      · rw [hr]
        exact ⟨_, rfl⟩

theorem main_ends (posix : Bool) (h : argv ≠ []) : ∃ r, main posix argv = some r :=
  mainLoop_ends posix (Getopt.start_sound h) (Nat.lt_succ_self _)

/-- The ways to write `--add` with its argument `p`: in full, abbreviated, or as a letter. -/
inductive AddLine (p : CStr) (words : List CStr) : List CStr → Prop
  | long (hname : name ∈ [str "a", str "ad", str "add"]) (hw : w.1 = str "--" ++ name) :
      AddLine p words (prog :: w :: p :: words)
  | longAttached (hname : name ∈ [str "a", str "ad", str "add"])
      (hw : w.1 = str "--" ++ (name ++ str "=" ++ p.1)) : AddLine p words (prog :: w :: words)
  | short (hw : w.1 = str "-a") : AddLine p words (prog :: w :: p :: words)
  | shortAttached (hw : w.1 = str "-a" ++ p.1) : AddLine p words (prog :: w :: words)

theorem find_add (h : name ∈ [str "a", str "ad", str "add"]) : name ≠ [] ∧ 61 ∉ name ∧
    findLong opts name = some ⟨str "add", .requiredArgument, 97⟩ := by
  simp only [List.mem_cons, List.not_mem_nil, or_false] at h
  rcases h with rfl | rfl | rfl
  · decide
  · decide
  · decide

theorem find_a : findShort optstring 97 = some .requiredArgument := by decide

theorem AddLine.option (posix : Bool) (h : AddLine p words argv) (hp : p.1 ≠ []) : ∃ g,
    nextOption posix (Getopt.start argv) = (some (97, some p.1), g) ∧ g.AtWord ∧
      g.argv = argv ∧ g.optind ≤ argv.length ∧ argv.drop g.optind = words := by
  have hstart : (Getopt.start argv).AtWord := Getopt.start_atWord argv
  cases h with
  | @long name w prog hname hw =>
    obtain ⟨hne, heq, hfind⟩ := find_add hname
    have ht : w.1 = 45 :: 45 :: name := hw
    obtain ⟨first, last, hfl, hlast, hnext⟩ :=
      Getopt.getoptLong_long posix optstring opts hstart rfl ht hne
    rw [Getopt.longOption_separate heq hfind rfl rfl] at hnext
    exact ⟨_, hnext, ⟨rfl, hfl, Nat.le_add_right_of_le hlast⟩, rfl, Nat.le_add_left _ _, rfl⟩
  | @longAttached name w prog hname hw =>
    obtain ⟨hne, heq, hfind⟩ := find_add hname
    have ht : w.1 = 45 :: 45 :: (name ++ 61 :: p.1) := by
      rw [hw, List.append_assoc]
      rfl
    obtain ⟨first, last, hfl, hlast, hnext⟩ :=
      Getopt.getoptLong_long posix optstring opts hstart rfl ht (by simp)
    rw [Getopt.longOption_attached heq hfind rfl] at hnext
    exact ⟨_, hnext, ⟨rfl, hfl, Nat.le_add_right_of_le hlast⟩, rfl, Nat.le_add_left _ _, rfl⟩
  | @short w prog hw =>
    have ht : w.1 = 45 :: 97 :: [] := hw
    obtain ⟨first, last, hfl, hlast, hnext⟩ :=
      Getopt.getoptLong_short posix optstring opts hstart rfl ht (by decide)
    rw [Getopt.shortOption_separate find_a rfl] at hnext
    exact ⟨_, hnext, ⟨rfl, hfl, Nat.le_add_right_of_le hlast⟩, rfl, Nat.le_add_left _ _, rfl⟩
  | @shortAttached w prog hw =>
    have ht : w.1 = 45 :: 97 :: p.1 := hw
    obtain ⟨first, last, hfl, hlast, hnext⟩ :=
      Getopt.getoptLong_short posix optstring opts hstart rfl ht (by decide)
    rw [Getopt.shortOption_attached find_a hp] at hnext
    exact ⟨_, hnext, ⟨rfl, hfl, Nat.le_add_right_of_le hlast⟩, rfl, Nat.le_add_left _ _, rfl⟩

theorem handlerCalls_nonOptionArguments (words : List CStr) :
    handlerCalls (words.map nonOptionArgument) = [] := by
  induction words with
  | nil => rfl
  | cons w words ih => exact ih

/-- On a command line that adds, `main` calls `update_cache`, and nothing else. -/
theorem main_add (posix : Bool) (h : AddLine p words argv) (hp : p.1 ≠ [])
    (hwords : ∀ v ∈ words, nonoption v.1 = true) : main posix argv =
      some ([.call .updateCache argv, .print (p.1 ++ str " is added to cache!\n")] ++
        words.map nonOptionArgument, 0) := by
  obtain ⟨g, hoption, hg, hargv, hle, hdrop⟩ := h.option posix hp
  obtain ⟨g', hend, hargv', hoptind⟩ : ∃ g', nextOption posix g = (none, g') ∧
      g'.argv = g.argv ∧ g'.optind = g.optind :=
    Getopt.getoptLong_nonoptions posix optstring opts hg (by rwa [hargv]) (by rwa [hargv, hdrop])
  have hne : argv ≠ [] := by
    cases h with
    | _ => simp
  obtain ⟨-, hleft⟩ := Getopt.getoptLong_left (Getopt.start_sound hne) hoption
  obtain ⟨n, hn⟩ := Nat.exists_eq_add_of_lt hleft
  have hrest : mainLoop posix (g.left Subtype.val + n + 1) g =
      some (words.map nonOptionArgument, 0) := by
    rw [mainLoop, hend]
    simp only [hargv', hoptind, hargv, hdrop]
  rw [SelfGit.main, hn, mainLoop, hoption]
  simp only [hrest, hargv]
  rfl

end SelfGit
