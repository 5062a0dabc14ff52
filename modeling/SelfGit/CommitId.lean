import SelfGit.Commit
import SelfGit.Reload
import SelfGit.TreeRoundTrip

namespace SelfGit
open Foundation
set_option autoImplicit true

/-- Files can be read, the objects are there, and a new object is written as a whole. -/
def Ready : (o : Op) → o.Res → Prop
  | .access _, (r : Bool) => r = true
  | .openExcl _, (r : Except Errno Fd) => ∀ e, r = .error e → e = .EEXIST
  | .write _ buf, (r : Int) => r = buf.length
  | o, r => Granted o r

theorem Ready.granted (h : Ready o r) : Granted o r := by
  cases o <;> first | exact h | trivial

/-- The hash that `write_sha1_file` computes of a buffer. -/
def fileHash (L : Lib) (buf : List Byte) (len : Nat) : Sha1 :=
  L.sha1 (deflateInto L [buf.take len] (toInt (L.zlib.deflateBound len)))

theorem writeSha1File_runs : RunsTo ok fs (writeSha1File L buf len) x fs' ↔
    ∃ r : Int, x = .ok (if r < 0 then -1 else 0, fileHash L buf len) ∧
      RunsTo ok fs (writeSha1Buffer L (fileHash L buf len)
        (deflateInto L [buf.take len] (toInt (L.zlib.deflateBound len)))) (.ok r) fs' := by
  rw [writeSha1File, runs_seq]
  constructor
  · rintro (⟨r, fs₁, hw, h⟩ | ⟨e, -, hw⟩)
    · obtain ⟨rfl, rfl⟩ := Prog.runs_pure.1 h
      exact ⟨r, rfl, hw⟩
    · exact absurd hw writeSha1Buffer_ends
  · rintro ⟨r, rfl, hw⟩
    exact .inl ⟨r, fs', hw, Prog.runs_pure.2 ⟨rfl, rfl⟩⟩

theorem writeSha1File_hash (h : RunsTo ok fs (writeSha1File L buf len) (.ok (r, s)) fs') :
    s = fileHash L buf len := by
  obtain ⟨_, heq, -⟩ := writeSha1File_runs.1 h
  cases heq
  rfl

theorem writeSha1File_ends : ¬ RunsTo ok fs (writeSha1File L buf len) (.error e) fs' := by
  intro h
  obtain ⟨_, heq, -⟩ := writeSha1File_runs.1 h
  cases heq

/-- The bytes that `strcpy` leaves of the destination agree with the source. -/
def Agrees (dst src : List Byte) : Prop :=
  ∀ i, 0 ∈ src.take i → dst[i]? = src[i]?

theorem strcpy_id (dst src : List Byte) :
    ((strcpy dst src).1 = src ↔ Agrees dst src) ∧ ((strcpy dst src).2 = true ↔ 0 ∉ src) := by
  cases hs : strlen src with
  | none =>
    have h0 := strlen_eq_none.1 hs
    simp only [strcpy, hs, h0, not_false_eq_true, and_true, true_iff]
    intro i hi
    exact absurd (List.mem_of_mem_take hi) h0
  | some n =>
    obtain ⟨t, ht, hn, hlt⟩ := strlen_spec hs
    have hmem : 0 ∈ src := by
      rw [ht]
      simp
    have htake : (src.take (n + 1)).length = n + 1 := by
      rw [List.length_take]
      omega
    simp only [strcpy, hs, hmem, not_true_eq_false, Bool.false_eq_true, and_true]
    constructor
    · intro h i hi
      have hni : n < i := by
        by_contra hle
        apply hn
        rw [← Nat.min_eq_left (show i ≤ n by omega), ← List.take_take] at hi
        exact List.mem_of_mem_take hi
      rw [← h, List.getElem?_append_right (by omega), htake, List.getElem?_drop]
      congr 1
      omega
    · intro h
      apply List.ext_getElem?
      intro i
      by_cases hi : i < n + 1
      · rw [List.getElem?_append_left (by omega), List.getElem?_take_of_lt hi]
      · rw [List.getElem?_append_right (by omega), htake, List.getElem?_drop,
          show n + 1 + (i - (n + 1)) = i by omega]
        apply h
        have hget : src[n]? = some 0 := by
          have hlen : (src.take n).length = n := by
            rw [List.length_take]
            omega
          rw [ht, List.getElem?_append_right (by omega), hlen, Nat.sub_self]
          rfl
        apply List.mem_of_getElem? (i := n)
        rw [List.getElem?_take_of_lt (by omega), hget]

def Finding (dst : List Byte) : (o : Op) → o.Res → Prop
  | .memory _, (m : List Byte) => m = dst
  | o, r => Ready o r

theorem Finding.granted (h : Finding dst o r) : Granted o r := by
  cases o with
  | memory n => trivial
  | _ => exact Ready.granted h

theorem finding_access (dst : List Byte) (p : Path) (r : Bool) :
    Finding dst (.access p) r ↔ r = true := Iff.rfl

theorem runs_treeOf {ok : (o : Op) → o.Res → Prop} (f : Unit → Proc α) :
    RunsTo ok fs (treeOf es >>= f) x fs' ↔ ok (.treeOf es) () ∧ RunsTo ok fs (f ()) x fs' := by
  refine (runs_look (o := Op.treeOf es) (fun _ _ h => (Option.some.inj h).symm) f).trans ?_
  simp only [FS.step, true_and]
  constructor
  · rintro ⟨_, h⟩
    exact h
  · intro h
    exact ⟨(), h⟩

/-- Of an index that loads, `write_tree` copies the hash of the tree with `strcpy`. -/
theorem writeTree_finding {fs fs' : FS} (hd : fs.dir indexPath = some i)
    (hload : readBack L (fs.data i) = .ok ((es.length : Int), c)) (hc : c.Holds es)
    (hne : es ≠ []) (hobj : ∀ ce ∈ es, fs.dir (sha1FileName L ce.sha1) ≠ none)
    (hh : handedTree es = .ok (buf, len))
    (h : RunsTo (Finding dst) fs (writeTree L sha1) x fs') :
    x = .ok (strcpy sha1 (fileHash L buf len).toList) := by
  rw [writeTree, runs_seq] at h
  have hread : ∀ y fs₁, RunsTo (Finding dst) fs (readCache L Cache.null) y fs₁ →
      fs₁ = fs ∧ y = .ok ((es.length : Int), c) := by
    intro y fs₁ hr
    have hg : RunsTo Granted fs (readCache L Cache.null) y fs₁ :=
      Prog.Runs.mono (fun _ _ _ _ h => ⟨h.1, Finding.granted h.2⟩) hr
    rw [← hload]
    exact readCache_result hd hg
  rcases h with ⟨⟨n, m⟩, fs₁, hr, h⟩ | ⟨e, -, hr⟩
  · obtain ⟨rfl, hy⟩ := hread _ _ hr
    cases hy
    have hpos := List.length_pos_of_ne_nil hne
    have hentries : ¬ (es.length : Int) ≤ 0 := by omega
    simp only [hentries, ↓reduceIte, Int.toNat_natCast] at h
    rw [runs_seq] at h
    simp only [buildTree_runs (finding_access dst) hc hobj, hh] at h
    rcases h with ⟨_, _, ⟨hb, rfl⟩, h⟩ | ⟨e, -, hb, -⟩
    · cases hb
      rw [runs_treeOf, runs_seq] at h
      rcases h.2 with ⟨⟨r, s⟩, fs₂, hw, h⟩ | ⟨e, rfl, hw⟩
      · rw [← writeSha1File_hash hw]
        exact (Prog.runs_pure.1 h).1
      · exact absurd hw writeSha1File_ends
    · cases hb
  · cases (hread _ _ hr).2

/-- The id that `commit` hands to `commit_tree` is that of the tree just stored if and only if the
block it was copied to happened to hold the bytes of the hash behind the first NUL. -/
theorem commit_tree_id {fs fs' : FS} (hd : fs.dir indexPath = some i)
    (hload : readBack L (fs.data i) = .ok ((es.length : Int), c)) (hc : c.Holds es)
    (hne : es ≠ []) (hobj : ∀ ce ∈ es, fs.dir (sha1FileName L ce.sha1) ≠ none)
    (hh : handedTree es = .ok (buf, len))
    (hrun : RunsTo (Finding dst) fs (commit L argv w) x fs') :
    ∃ id past fs₁ y, RunsTo (Finding dst) fs (writeTree L dst) (.ok (id, past)) fs₁ ∧
      RunsTo (Finding dst) fs₁ (commitTree L argv w id) y fs' ∧
      (id = (fileHash L buf len).toList ∧ treeLine id = treeLine (fileHash L buf len).toList ↔
        Agrees dst (fileHash L buf len).toList) ∧
      (past = true ↔ 0 ∉ (fileHash L buf len).toList) := by
  rw [commit, runs_memory] at hrun
  obtain ⟨m, ⟨-, hm : m = dst⟩, hrun⟩ := hrun
  subst m
  obtain ⟨hid, hpast⟩ := strcpy_id dst (fileHash L buf len).toList
  rw [runs_seq] at hrun
  rcases hrun with ⟨⟨id, past⟩, fs₁, hw, hrun⟩ | ⟨e, -, hw⟩
  · have hw' := writeTree_finding hd hload hc hne hobj hh hw
    rw [Except.ok.injEq] at hw'
    rw [← hw'] at hid hpast
    have hboth : id = (fileHash L buf len).toList ∧
        treeLine id = treeLine (fileHash L buf len).toList ↔
          Agrees dst (fileHash L buf len).toList := by
      rw [← hid]
      exact ⟨fun h => h.1, fun h => ⟨h, congrArg treeLine h⟩⟩
    simp only [runs_seq] at hrun
    rcases hrun with ⟨a, fs₂, hct, hend⟩ | ⟨e, -, hct⟩
    · obtain ⟨-, rfl⟩ := Prog.runs_pure.1 hend
      exact ⟨id, past, fs₁, .ok a, hw, hct, hboth, hpast⟩
    · exact ⟨id, past, fs₁, .error e, hw, hct, hboth, hpast⟩
  · cases writeTree_finding hd hload hc hne hobj hh hw

instance (o : Op) (r : o.Res) : Decidable (Granted o r) :=
  match o, r with
  | .accessDir _, (r : Bool) => inferInstanceAs (Decidable (r = true))
  | .openRead _, .ok fd => isTrue ⟨fd, rfl⟩
  | .openRead _, .error _ => isFalse fun h => nomatch h
  | .fstat _, some st => isTrue ⟨st, rfl⟩
  | .fstat _, none => isFalse fun h => nomatch h
  | .mmap _ _, some m => isTrue ⟨m, rfl⟩
  | .mmap _ _, none => isFalse fun h => nomatch h
  | .malloc _, (r : Bool) => inferInstanceAs (Decidable (r = true))
  | .access _, _ | .openExcl _, _ | .write _ _, _ | .rename _ _, _ | .unlink _, _
  | .memory _, _ | .noReturn _ _, _ | .treeOf _, _ => isTrue trivial

instance (o : Op) (r : o.Res) : Decidable (Ready o r) :=
  match o, r with
  | .access _, (r : Bool) => inferInstanceAs (Decidable (r = true))
  | .openExcl _, .ok _ => isTrue fun _ h => nomatch h
  | .openExcl _, .error e =>
    if h : e = .EEXIST then isTrue fun _ he => (Except.error.inj he) ▸ h
    else isFalse fun hall => h (hall e rfl)
  | .write _ buf, (r : Int) => inferInstanceAs (Decidable (r = buf.length))
  | .accessDir p, r => inferInstanceAs (Decidable (Granted (.accessDir p) r))
  | .openRead p, r => inferInstanceAs (Decidable (Granted (.openRead p) r))
  | .fstat fd, r => inferInstanceAs (Decidable (Granted (.fstat fd) r))
  | .mmap fd n, r => inferInstanceAs (Decidable (Granted (.mmap fd n) r))
  | .malloc n, r => inferInstanceAs (Decidable (Granted (.malloc n) r))
  | .rename _ _, _ | .unlink _, _ | .memory _, _ | .noReturn _ _, _ | .treeOf _, _ =>
    isTrue trivial

instance (dst : List Byte) (o : Op) (r : o.Res) : Decidable (Finding dst o r) :=
  match o, r with
  | .memory _, (m : List Byte) => inferInstanceAs (Decidable (m = dst))
  | .accessDir p, r => inferInstanceAs (Decidable (Ready (.accessDir p) r))
  | .access p, r => inferInstanceAs (Decidable (Ready (.access p) r))
  | .openRead p, r => inferInstanceAs (Decidable (Ready (.openRead p) r))
  | .openExcl p, r => inferInstanceAs (Decidable (Ready (.openExcl p) r))
  | .fstat fd, r => inferInstanceAs (Decidable (Ready (.fstat fd) r))
  | .mmap fd n, r => inferInstanceAs (Decidable (Ready (.mmap fd n) r))
  | .write fd b, r => inferInstanceAs (Decidable (Ready (.write fd b) r))
  | .rename p q, r => inferInstanceAs (Decidable (Ready (.rename p q) r))
  | .unlink p, r => inferInstanceAs (Decidable (Ready (.unlink p) r))
  | .malloc n, r => inferInstanceAs (Decidable (Ready (.malloc n) r))
  | .noReturn c p, r => inferInstanceAs (Decidable (Ready (.noReturn c p) r))
  | .treeOf es, r => inferInstanceAs (Decidable (Ready (.treeOf es) r))

def FS.indexed (L : Lib) (e : CacheEntry) : FS :=
  ⟨Function.update (Function.update FS.empty.dir (sha1FileName L e.sha1) (some 1)) indexPath
    (some 0), Function.update FS.empty.data 0 (cacheImage L [e]), 2⟩

theorem indexed_read (L : Lib) (e : CacheEntry) :
    (FS.indexed L e).read indexPath = some (cacheImage L [e]) := by
  simp only [FS.read, FS.indexed, Function.update_self, Option.map_some]

theorem indexed_good (L : Lib) (e : CacheEntry) : (FS.indexed L e).Good := by
  intro p i hd
  simp only [FS.indexed, Function.update_apply] at hd
  split at hd
  · cases hd
    exact Nat.zero_lt_two
  · split at hd
    · cases hd
      exact Nat.one_lt_two
    · cases hd

def someone : Surroundings where
  passwd := some ⟨cstr "u", cstr "U"⟩
  hostname := cstr "h"
  ctime := cstr "now"
  committerName := none
  committerEmail := none
  committerDate := none
  stdin := str "x"

theorem indexed_tree : ∃ c buf len, Cache.Holds c [linked (cstr "a")] ∧
    (FS.indexed storedLib (linked (cstr "a"))).dir indexPath = some 0 ∧
    readBack storedLib ((FS.indexed storedLib (linked (cstr "a"))).data 0) =
      .ok ((([linked (cstr "a")].length : Nat) : Int), c) ∧
    (∀ ce ∈ [linked (cstr "a")], (FS.indexed storedLib (linked (cstr "a"))).dir
      (sha1FileName storedLib ce.sha1) ≠ none) ∧
    handedTree [linked (cstr "a")] = .ok (buf, len) ∧
    (strcpy (List.replicate 20 0) (fileHash storedLib buf len).toList).1 ≠
      (fileHash storedLib buf len).toList := by
  have hnamed : ∀ ce ∈ [linked (cstr "a")], ce.Named :=
    fun ce he => List.mem_singleton.1 he ▸ newEntry_named (by decide)
  have hholds : (reloaded [linked (cstr "a")]).Holds ([linked (cstr "a")].map
      CacheEntry.trim) := reloaded_holds (by decide)
  rw [List.map_singleton, show (linked (cstr "a")).trim = linked (cstr "a") by decide] at hholds
  refine ⟨reloaded [linked (cstr "a")], treeBytes [linked (cstr "a")],
    (treeBytes [linked (cstr "a")]).length % 2 ^ 32, hholds, ?_, ?_, ?_, ?_, ?_⟩
  · simp only [FS.indexed, Function.update_self]
  · simp only [FS.indexed, Function.update_self]
    rw [readBack_image (by decide), if_pos (by decide)]
  · intro ce hce
    rw [List.mem_singleton.1 hce]
    simp only [FS.indexed]
    rw [Function.update_of_ne (sha1FileName_ne_index _ _), Function.update_self]
    simp
  · rw [handedTree_named hnamed, if_pos (by decide)]
  · decide +kernel

theorem indexed_commits : ∃ x fs', RunsTo (Finding (List.replicate 20 0))
    (FS.indexed storedLib (linked (cstr "a")))
    (commit storedLib [cstr "git", cstr "--commit"] someone) x fs' := by
  have hrun : (Prog.exec (FS.serve []) (FS.stepIf (Finding (List.replicate 20 0))) 12
      (FS.indexed storedLib (linked (cstr "a")))
      (commit storedLib [cstr "git", cstr "--commit"] someone)).isSome = true := by
    decide +kernel
  obtain ⟨⟨x, fs'⟩, h⟩ := Option.isSome_iff_exists.1 hrun
  exact ⟨x, fs', exec_runsTo h⟩

/-- A commit of one file, in memory that held zeros. -/
theorem commit_tree_id_one : ∃ buf len id past fs₁ y x fs',
    RunsTo (Finding (List.replicate 20 0)) (FS.indexed storedLib (linked (cstr "a")))
      (commit storedLib [cstr "git", cstr "--commit"] someone) x fs' ∧
    RunsTo (Finding (List.replicate 20 0)) fs₁
      (commitTree storedLib [cstr "git", cstr "--commit"] someone id) y fs' ∧
    (id = (fileHash storedLib buf len).toList ∧
      treeLine id = treeLine (fileHash storedLib buf len).toList ↔
        Agrees (List.replicate 20 0) (fileHash storedLib buf len).toList) ∧
    (past = true ↔ 0 ∉ (fileHash storedLib buf len).toList) := by
  obtain ⟨c, buf, len, hc, hd, hload, hobj, hh, -⟩ := indexed_tree
  obtain ⟨x, fs', hrun⟩ := indexed_commits
  obtain ⟨id, past, fs₁, y, -, hct, hid, hpast⟩ :=
    commit_tree_id hd hload hc (List.cons_ne_nil _ _) hobj hh hrun
  exact ⟨buf, len, id, past, fs₁, y, x, fs', hrun, hct, hid, hpast⟩

/-- The hash of the tree of one file has a NUL inside, and the id that is handed on is not that of
the tree. -/
theorem commit_tree_id_cut : ∃ c buf len id past fs₁,
    Cache.Holds c [linked (cstr "a")] ∧
    readBack storedLib ((FS.indexed storedLib (linked (cstr "a"))).data 0) =
      .ok ((([linked (cstr "a")].length : Nat) : Int), c) ∧
    (∀ ce ∈ [linked (cstr "a")], (FS.indexed storedLib (linked (cstr "a"))).dir
      (sha1FileName storedLib ce.sha1) ≠ none) ∧
    handedTree [linked (cstr "a")] = .ok (buf, len) ∧
    RunsTo (Finding (List.replicate 20 0)) (FS.indexed storedLib (linked (cstr "a")))
      (writeTree storedLib (List.replicate 20 0)) (.ok (id, past)) fs₁ ∧
    (∃ y fs', RunsTo (Finding (List.replicate 20 0)) fs₁
      (commitTree storedLib [cstr "git", cstr "--commit"] someone id) y fs') ∧
    id ≠ (fileHash storedLib buf len).toList := by
  obtain ⟨c, buf, len, hc, hd, hload, hobj, hh, hne⟩ := indexed_tree
  obtain ⟨x, fs', hrun⟩ := indexed_commits
  rw [commit, runs_memory] at hrun
  obtain ⟨m, ⟨-, hm : m = List.replicate 20 0⟩, hrun⟩ := hrun
  subst m
  rw [runs_seq] at hrun
  rcases hrun with ⟨⟨id, past⟩, fs₁, hw, hrun⟩ | ⟨e, -, hw⟩
  · have hid := writeTree_finding hd hload hc (List.cons_ne_nil _ _) hobj hh hw
    rw [Except.ok.injEq] at hid
    rw [← hid] at hne
    simp only [runs_seq] at hrun
    refine ⟨c, buf, len, id, past, fs₁, hc, hload, hobj, hh, hw, ?_, hne⟩
    rcases hrun with ⟨a, fs₂, hct, -⟩ | ⟨e, -, hct⟩
    · exact ⟨_, _, hct⟩
    · exact ⟨_, _, hct⟩
  · cases writeTree_finding hd hload hc (List.cons_ne_nil _ _) hobj hh hw

end SelfGit
