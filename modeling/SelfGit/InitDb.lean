import SelfGit.Foundation.Exec
import SelfGit.Answers
import SelfGit.StoredZlib
import SelfGit.Tree

namespace SelfGit
open Foundation
set_option autoImplicit true

inductive Kind where
  | directory
  | file
  deriving DecidableEq

/-- What `init` asks of its surroundings. -/
inductive DirOp where
  | mkdir (path : Path)
  | stat (path : Path)
  | malloc (n : Nat)

def DirOp.Res : DirOp → Type
  | .mkdir _ => Except Errno Unit
  | .stat _ => Option Kind
  | .malloc _ => Bool

abbrev DirProc := Prog DirOp DirOp.Res Stop

def mkdir (path : Path) : DirProc (Except Errno Unit) := Prog.ask (DirOp.mkdir path)
def stat (path : Path) : DirProc (Option Kind) := Prog.ask (DirOp.stat path)
def allocate (n : Nat) : DirProc Bool := Prog.ask (DirOp.malloc n)

abbrev Names := Path → Option Kind

/-- `mkdir` reports `EEXIST` only of what is there. Everything can fail for other reasons. -/
def Names.step (t : Names) : (o : DirOp) → o.Res → Option Names
  | .mkdir p, (r : Except Errno Unit) =>
    match r with
    | .ok _ => if t p = none then some (Function.update t p (some .directory)) else none
    | .error e => if e = .EEXIST ∧ t p = none then none else some t
  | .stat p, (r : Option Kind) => if r = none ∨ r = t p then some t else none
  | .malloc _, _ => some t

def dircache : Path := str ".dircache"
def defaultDbEnvironment : Path := str ".dircache/objects"

/-- The operator `!` on an `int`. -/
def cNot (n : Int) : Int := if n = 0 then 1 else 0

/-- `%02x` of a number below 256. -/
def hex2 (n : Nat) : List Byte :=
  let digit (d : Nat) : Byte := UInt8.ofNat (if d < 10 then 48 + d else 87 + d)
  [digit (n / 16), digit (n % 16)]

/-- `mkdir` with a directory that is already there taken as made. -/
def safeMkdir (path : Path) : DirProc Unit := do
  match ← mkdir path with
  | .ok _ => return ()
  | .error e => if e = .EEXIST then return () else Prog.halt (.exit 1)

/-- The loop over the subdirectories. -/
def makeSubdirectories (dir : Path) : List Nat → DirProc Unit
  | [] => return ()
  | i :: is => do
    safeMkdir (dir ++ 47 :: hex2 i)
    makeSubdirectories dir is

/-- The part of `init` behind the choice of the directory. -/
def initDefault : DirProc (Option Int × Path) := do
  let sha1Dir := defaultDbEnvironment
  safeMkdir sha1Dir
  if ← allocate (sha1Dir.length + 40) then
    makeSubdirectories sha1Dir (List.range 256)
    return (some 0, sha1Dir)
  else Prog.halt .fault

/-- The test of the variable compares the negated result of `stat` with zero. -/
def init (dbEnvironment : Option CStr) : DirProc (Option Int × Path) := do
  match ← mkdir dircache with
  | .error _ => Prog.halt (.exit 1)
  | .ok _ =>
    match dbEnvironment with
    | some sha1Dir =>
      let st ← stat sha1Dir.1
      if cNot (if st = none then -1 else 0) < 0 ∧ st = some .directory then
        return (none, sha1Dir.1)
      else initDefault
    | none => initDefault

/-- The complete runs of `init` over the names there are. -/
abbrev InitRuns (t : Names) (p : DirProc α) (x : Except Stop α) (t' : Names) : Prop :=
  Prog.Runs (fun t o r t' => Names.step t o r = some t') t p x t'

def Vacant (t : Names) (p : Path) : Prop := t p = none ∧ ∀ q, t (p ++ 47 :: q) = none

def DirectoriesBelow (t : Names) (p : Path) : Prop :=
  ∀ q k, t (p ++ 47 :: q) = some k → k = .directory

def Lasting (t t' : Names) : Prop := ∀ p, t p = some .directory → t' p = some .directory

theorem Lasting.trans (h : Lasting t₁ t₂) (h' : Lasting t₂ t₃) : Lasting t₁ t₃ :=
  fun p hp => h' p (h p hp)

theorem cNot_nonneg (n : Int) : 0 ≤ cNot n := by
  rw [cNot]
  split <;> decide

theorem runs_mkdir (f : Except Errno Unit → DirProc α) :
    InitRuns t (mkdir p >>= f) x t' ↔
      ∃ r t₁, Names.step t (.mkdir p) r = some t₁ ∧ InitRuns t₁ (f r) x t' :=
  Prog.runs_call

theorem runs_stat (f : Option Kind → DirProc α) :
    InitRuns t (stat p >>= f) x t' ↔ ∃ st, (st = none ∨ st = t p) ∧ InitRuns t (f st) x t' := by
  refine Prog.runs_call.trans ?_
  constructor
  · rintro ⟨st, t₁, hs, h⟩
    simp only [Names.step] at hs
    split at hs
    · rename_i hst
      cases hs
      exact ⟨st, hst, h⟩
    · cases hs
  · rintro ⟨st, hst, h⟩
    refine ⟨st, t, ?_, h⟩
    simp only [Names.step]
    rw [if_pos hst]

theorem safeMkdir_spec (h : InitRuns t (safeMkdir (p ++ 47 :: q)) (.ok u) t')
    (hd : DirectoriesBelow t p) :
    t' (p ++ 47 :: q) = some .directory ∧ Lasting t t' ∧ DirectoriesBelow t' p := by
  rw [safeMkdir, runs_mkdir] at h
  obtain ⟨r, t₁, hs, h⟩ := h
  simp only [Names.step] at hs
  cases r with
  | ok _ =>
    obtain ⟨-, rfl⟩ := Prog.runs_pure.1 h
    simp only at hs
    split at hs
    · rename_i hnone
      cases hs
      refine ⟨Function.update_self .., ?_, ?_⟩
      · intro x hx
        rw [Function.update_apply]
        split
        · rfl
        · exact hx
      · intro x k hk
        rw [Function.update_apply] at hk
        split at hk
        · exact (Option.some.inj hk).symm
        · exact hd x k hk
    · cases hs
  | error e =>
    simp only at h hs
    split at h
    · rename_i he
      obtain ⟨-, rfl⟩ := Prog.runs_pure.1 h
      split at hs
      · cases hs
      · rename_i hex
        cases hs
        obtain ⟨k, hk⟩ := Option.ne_none_iff_exists'.1 fun hn => hex ⟨he, hn⟩
        rw [hk, hd q k hk]
        exact ⟨rfl, fun _ hp => hp, hd⟩
    · cases (Prog.runs_halt.1 h).1

theorem makeSubdirectories_spec (h : InitRuns t (makeSubdirectories p is) (.ok u) t')
    (hd : DirectoriesBelow t p) :
    (∀ i ∈ is, t' (p ++ 47 :: hex2 i) = some .directory) ∧ Lasting t t' := by
  induction is generalizing t with
  | nil =>
    obtain ⟨-, rfl⟩ := Prog.runs_pure.1 h
    exact ⟨fun i hi => absurd hi List.not_mem_nil, fun _ hp => hp⟩
  | cons i is ih =>
    rcases (Prog.runs_bind _ _).1 h with ⟨a, t₁, ha, h⟩ | ⟨e, he, -⟩
    · obtain ⟨hmade, hkept, hd₁⟩ := safeMkdir_spec ha hd
      obtain ⟨hall, hkept'⟩ := ih h hd₁
      refine ⟨?_, hkept.trans hkept'⟩
      intro j hj
      rcases List.mem_cons.1 hj with rfl | hj
      · exact hkept' _ hmade
      · exact hall j hj
    · cases he

theorem getSha1HexLoop_length (h : (getSha1HexLoop n hex).2 = true) :
    (getSha1HexLoop n hex).1.length = n := by
  induction n generalizing hex with
  | zero => rfl
  | succ n ih =>
    rw [getSha1HexLoop] at h ⊢
    split at h
    · cases h
    · rename_i hval
      rw [if_neg hval]
      simp only [List.length_cons]
      rw [ih h]

/-- The directory that `read_tree` sets, and the lines it prints. -/
def readTree (L : Lib) (argv : List CStr) : Proc (Path × List TreeRecord) := do
  match argv with
  | [_, _, key] =>
    if h : (getSha1Hex key.1).2 = true then
      let sha1FileDirectory := L.objectDirectory
      let lines ← unpack L ⟨(getSha1Hex key.1).1, getSha1HexLoop_length h⟩
      return (sha1FileDirectory, lines)
    else Prog.halt (.exit 1)
  | _ => Prog.halt (.exit 1)

def dirPart (path : Path) : Path := ((path.reverse.dropWhile (· ≠ 47)).drop 1).reverse

theorem dirPart_append (d : Path) (hn : 47 ∉ n) : dirPart (d ++ 47 :: n) = d := by
  have hall : ∀ c ∈ n.reverse, decide (c ≠ 47) = true := by
    intro c hc
    rw [decide_eq_true_eq]
    rintro rfl
    exact hn (List.mem_reverse.1 hc)
  rw [dirPart, List.reverse_append, List.reverse_cons, List.append_assoc,
    List.dropWhile_append_of_pos hall]
  simp

theorem sha1ToHex_ne_slash (h : c ∈ sha1ToHex s) : c ≠ 47 := by
  have hall : ∀ k < 16, (str "0123456789abcdef").getD k 0 ≠ 47 := by decide
  simp only [sha1ToHex, List.mem_flatMap, hexByte, List.mem_cons, List.not_mem_nil,
    or_false] at h
  obtain ⟨b, -, rfl | rfl⟩ := h
  · exact hall _ (high_lt b)
  · exact hall _ (low_lt b)

theorem dirPart_sha1FileName (L : Lib) (s : Sha1) :
    dirPart (sha1FileName L s) = L.objectDirectory ++ 47 :: (sha1ToHex s.toList).take 2 := by
  rw [sha1FileName_eq]
  apply dirPart_append
  intro h
  exact sha1ToHex_ne_slash (List.mem_of_mem_drop h) rfl

/-- The number of the loop is the first part of the name of every object of that first byte. -/
theorem hex2_eq (b : Byte) : hex2 b.toNat = hexByte b := by
  have hall : ∀ n < 256, hex2 n = hexByte (UInt8.ofNat n) := by decide +kernel
  rw [hall _ b.toNat_lt, UInt8.ofNat_toNat]

theorem sha1ToHex_take_two (s : Sha1) :
    ∃ i < 256, (sha1ToHex s.toList).take 2 = hex2 i := by
  obtain ⟨l, hl⟩ := s
  obtain ⟨b, t, rfl⟩ := List.exists_cons_of_length_eq_add_one hl
  refine ⟨b.toNat, b.toNat_lt, ?_⟩
  rw [hex2_eq]
  rfl

/-- A directory is the one that `read_cache`, `read_tree` and `sha1_file_name` work in. -/
structure UsedDirectory (L : Lib) (denotes : Path → D) (dir : Path) : Prop where
  readCache : ∀ p k, readCache L Cache.null = Prog.call (.accessDir p) k →
    denotes dir = denotes p
  readTree : ∀ argv fs p lines fs', RunsTo (fun _ _ => True) fs (readTree L argv)
    (.ok (p, lines)) fs' → denotes dir = denotes p
  sha1FileName : ∀ s, denotes dir = denotes (dirPart (dirPart (sha1FileName L s)))

theorem readTree_directory {ok : (o : Op) → o.Res → Prop}
    (h : RunsTo ok fs (readTree L argv) (.ok (p, lines)) fs') : p = L.objectDirectory := by
  rw [readTree.eq_def] at h
  split at h
  · split at h
    · rcases (runs_seq _ _).1 h with ⟨a, fs₁, -, h⟩ | ⟨e, he, -⟩
      · cases (Prog.runs_pure.1 h).1
        rfl
      · cases he
    · cases (Prog.runs_halt.1 h).1
  · cases (Prog.runs_halt.1 h).1

theorem usedDirectory_iff (L : Lib) (denotes : Path → D) (dir : Path) :
    UsedDirectory L denotes dir ↔ denotes dir = denotes L.objectDirectory := by
  constructor
  · intro h
    exact h.readCache _ _ rfl
  · intro h
    refine ⟨?_, ?_, ?_⟩
    · intro p k hk
      injection hk with ho
      injection ho with hp
      rw [← hp, h]
    · intro argv fs p lines fs' hr
      rw [readTree_directory hr, h]
    · intro s
      rw [dirPart_sha1FileName, dirPart_append, h]
      intro hs
      exact sha1ToHex_ne_slash (List.mem_of_mem_take hs) rfl

theorem DirectoriesBelow.below (h : DirectoriesBelow t p) (q : Path) :
    DirectoriesBelow t (p ++ 47 :: q) := by
  intro x k hk
  apply h (q ++ 47 :: x) k
  rw [← List.cons_append, ← List.append_assoc]
  exact hk

theorem initDefault_spec (h : InitRuns t initDefault (.ok (r, dir)) t')
    (hd : DirectoriesBelow t dircache) : dir = defaultDbEnvironment ∧
      ∀ i < 256, t' (defaultDbEnvironment ++ 47 :: hex2 i) = some .directory := by
  have hsplit : defaultDbEnvironment = dircache ++ 47 :: str "objects" := by decide
  rcases (Prog.runs_bind _ _).1 h with ⟨_, t₁, hobj, h⟩ | ⟨e, he, -⟩
  · rw [hsplit] at hobj
    obtain ⟨-, -, hd₁⟩ := safeMkdir_spec hobj hd
    obtain ⟨a, t₂, hs, h⟩ := (Prog.runs_ask_bind (DirOp.malloc _) _).1 h
    cases hs
    cases a with
    | false => cases (Prog.runs_halt.1 h).1
    | true =>
      rcases (Prog.runs_bind _ _).1 h with ⟨_, t₃, hsub, h⟩ | ⟨e, he, -⟩
      · obtain ⟨heq, rfl⟩ := Prog.runs_pure.1 h
        cases heq
        have hbelow := hd₁.below (str "objects")
        rw [← hsplit] at hbelow
        refine ⟨rfl, ?_⟩
        intro i hi
        exact (makeSubdirectories_spec hsub hbelow).1 i (List.mem_range.2 hi)
      · cases he
  · cases he

/-- The negation of anything is at least zero. -/
theorem stat_test_false (st : Option Kind) :
    ¬ (cNot (if st = none then -1 else 0) < 0 ∧ st = some .directory) := by
  intro h
  have := cNot_nonneg (if st = none then -1 else 0)
  omega

/-- `init` always settles on the default directory, and leaves it with all its subdirectories. -/
theorem init_spec (ht : Vacant t dircache) (h : InitRuns t (init env) (.ok (r, dir)) t') :
    dir = defaultDbEnvironment ∧
      ∀ i < 256, t' (defaultDbEnvironment ++ 47 :: hex2 i) = some .directory := by
  obtain ⟨a, t₁, hs, h⟩ := (runs_mkdir _).1 h
  cases a with
  | error e => cases (Prog.runs_halt.1 h).1
  | ok _ =>
    have hd : DirectoriesBelow t₁ dircache := by
      simp only [Names.step] at hs
      split at hs
      · cases hs
        intro q k hk
        rw [Function.update_apply] at hk
        split at hk
        · exact (Option.some.inj hk).symm
        · rw [ht.2] at hk
          cases hk
      · cases hs
    cases env with
    | none => exact initDefault_spec h hd
    | some d =>
      obtain ⟨st, -, h⟩ := (runs_stat _).1 h
      rw [if_neg (stat_test_false st)] at h
      exact initDefault_spec h hd

/-- The directory that `init` settles on is the one the other commands work in if and only if the
variable is unset or names the default directory. -/
theorem init_directory (ht : Vacant t dircache)
    (h : InitRuns t (init L.dbEnvironment) (.ok (r, dir)) t') (denotes : Path → D) :
    (UsedDirectory L denotes dir ↔
      ∀ d, L.dbEnvironment = some d → denotes d.1 = denotes defaultDbEnvironment) ∧
    (L.dbEnvironment = none →
      ∀ s, t' (dirPart (sha1FileName L s)) = some .directory) := by
  obtain ⟨rfl, hall⟩ := init_spec ht h
  constructor
  · rw [usedDirectory_iff, Lib.objectDirectory]
    cases L.dbEnvironment with
    | none => simp [defaultDbEnvironment]
    | some d => simp [eq_comm]
  · intro hnone s
    obtain ⟨i, hi, hs⟩ := sha1ToHex_take_two s
    have hdir : L.objectDirectory = defaultDbEnvironment := by
      rw [Lib.objectDirectory, hnone]
      rfl
    rw [dirPart_sha1FileName, hdir, hs]
    exact hall i hi

theorem safeMkdir_ends (t : Names) (p : Path) :
    ∃ t', InitRuns t (safeMkdir p) (.ok ()) t' := by
  rw [safeMkdir]
  by_cases hp : t p = none
  · refine ⟨Function.update t p (some .directory), (runs_mkdir _).2 ⟨.ok (), _, ?_,
      Prog.runs_pure.2 ⟨rfl, rfl⟩⟩⟩
    simp only [Names.step]
    rw [if_pos hp]
  · refine ⟨t, (runs_mkdir _).2 ⟨.error .EEXIST, t, ?_, Prog.runs_pure.2 ⟨rfl, rfl⟩⟩⟩
    simp only [Names.step]
    rw [if_neg fun h => hp h.2]

theorem makeSubdirectories_ends (t : Names) (p : Path) (is : List Nat) :
    ∃ t', InitRuns t (makeSubdirectories p is) (.ok ()) t' := by
  induction is generalizing t with
  | nil => exact ⟨t, Prog.runs_pure.2 ⟨rfl, rfl⟩⟩
  | cons i is ih =>
    obtain ⟨t₁, h₁⟩ := safeMkdir_ends t (p ++ 47 :: hex2 i)
    obtain ⟨t₂, h₂⟩ := ih t₁
    exact ⟨t₂, (Prog.runs_bind _ _).2 (.inl ⟨(), t₁, h₁, h₂⟩)⟩

theorem init_ends (ht : t dircache = none) (env : Option CStr) :
    ∃ t', InitRuns t (init env) (.ok (some 0, defaultDbEnvironment)) t' := by
  have hdef : ∀ t, ∃ t', InitRuns t initDefault (.ok (some 0, defaultDbEnvironment)) t' := by
    intro t
    obtain ⟨t₁, h₁⟩ := safeMkdir_ends t defaultDbEnvironment
    obtain ⟨t₂, h₂⟩ := makeSubdirectories_ends t₁ defaultDbEnvironment (List.range 256)
    refine ⟨t₂, (Prog.runs_bind _ _).2 (.inl ⟨(), t₁, h₁, ?_⟩)⟩
    refine (Prog.runs_ask_bind (DirOp.malloc _) _).2 ⟨true, t₁, rfl, ?_⟩
    exact (Prog.runs_bind _ _).2 (.inl ⟨(), t₂, h₂, Prog.runs_pure.2 ⟨rfl, rfl⟩⟩)
  obtain ⟨t', h⟩ := hdef (Function.update t dircache (some .directory))
  refine ⟨t', (runs_mkdir _).2 ⟨.ok (), Function.update t dircache (some .directory), ?_, ?_⟩⟩
  · simp only [Names.step]
    rw [if_pos ht]
  · cases env with
    | none => exact h
    | some d =>
      refine (runs_stat _).2 ⟨none, .inl rfl, ?_⟩
      rw [if_neg (stat_test_false none)]
      exact h

def withDb : Names := Function.update (fun _ => none) (str "db") (some .directory)

theorem withDb_vacant : Vacant withDb dircache := by
  constructor
  · decide
  · intro q
    rw [withDb, Function.update_apply, if_neg]
    intro h
    cases h

/-- The variable is not set. -/
theorem init_directory_unset : ∃ t',
    InitRuns withDb (init storedLib.dbEnvironment) (.ok (some 0, defaultDbEnvironment)) t' ∧
    UsedDirectory storedLib id defaultDbEnvironment ∧
    ∀ s, t' (dirPart (sha1FileName storedLib s)) = some .directory := by
  obtain ⟨t', h⟩ := init_ends withDb_vacant.1 storedLib.dbEnvironment
  obtain ⟨hused, hall⟩ := init_directory withDb_vacant h id
  exact ⟨t', h, hused.2 (fun d hd => by cases hd), hall rfl⟩

/-- The variable names a directory that exists, and `init` settles on another one. -/
theorem init_directory_ignored : ∃ t',
    withDb (str "db") = some .directory ∧
    InitRuns withDb (init { storedLib with dbEnvironment := some (cstr "db") }.dbEnvironment)
      (.ok (some 0, defaultDbEnvironment)) t' ∧
    ¬ UsedDirectory { storedLib with dbEnvironment := some (cstr "db") } id
      defaultDbEnvironment := by
  obtain ⟨t', h⟩ := init_ends withDb_vacant.1 (some (cstr "db"))
  refine ⟨t', by decide, h, ?_⟩
  rw [usedDirectory_iff]
  decide

end SelfGit
