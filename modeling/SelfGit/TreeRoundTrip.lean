import SelfGit.BlobRoundTrip
import SelfGit.Tree

namespace SelfGit
open Foundation
set_option autoImplicit true

theorem unpackLoop_step {line hash : List Byte} (h0 : 0 ∉ line) (hb : 32 ∈ line)
    (hl : line.length + 21 < 2 ^ 31) (hs : hash.length = 20)
    (hm : scanUnsigned 8 line = some (mode, r)) (pre t : List Byte) (fuel : Nat) :
    unpackLoop (pre ++ (line ++ 0 :: (hash ++ t))) (fuel + 1) pre.length =
      (⟨UInt32.ofNat mode, (line.dropWhile (· ≠ 32)).drop 1, hash⟩ ::
        (unpackLoop (pre ++ (line ++ 0 :: (hash ++ t))) fuel
          (pre.length + line.length + 21)).1,
        (unpackLoop (pre ++ (line ++ 0 :: (hash ++ t))) fuel
          (pre.length + line.length + 21)).2) := by
  have hlen : (pre ++ (line ++ 0 :: (hash ++ t))).length =
      pre.length + line.length + 21 + t.length := by
    simp only [List.length_append, List.length_cons, hs]
    omega
  have hint : toInt (line.length + 1 : Nat) = line.length + 1 := by
    rw [toInt_of_lt (by omega)]
    omega
  have hhash : (pre ++ (line ++ 0 :: (hash ++ t))).drop (pre.length + line.length + 1) =
      hash ++ t := by
    rw [show pre.length + line.length + 1 = pre.length + (line.length + 1) by omega,
      List.drop_length_add_append, List.drop_length_add_append]
    rfl
  rw [unpackLoop, if_neg (by omega), List.drop_left, strlen_append _ _ h0]
  simp only [List.take_left, hint, hm]
  rw [if_neg (by
      rw [not_or, not_or]
      exact ⟨by omega, by simpa using hb, by omega⟩), if_neg (by omega),
    show (pre.length + ((line.length : Int) + 1)).toNat = pre.length + line.length + 1 by omega,
    hhash, List.take_left' hs]

/-- No field of a line can shift a boundary. -/
theorem unpackLoop_line (r : TreeRecord) (hp : 0 ∉ r.path) (hl : r.path.length < 2 ^ 16)
    (hs : r.sha1.length = 20) (pre t : List Byte) :
    unpackLoop (pre ++ (r.bytes ++ t)) (fuel + 1) pre.length =
      (r :: (unpackLoop (pre ++ (r.bytes ++ t)) fuel (pre.length + r.bytes.length)).1,
        (unpackLoop (pre ++ (r.bytes ++ t)) fuel (pre.length + r.bytes.length)).2) := by
  have hmode := r.mode.toNat_lt
  have hnum := numeral_mode_length r.mode
  have hdigit : ∀ c ∈ numeral 8 r.mode.toNat, isDigit 8 c = true := fun c hc =>
    numeral_digit (by decide) (by decide) hc
  have hline : 0 ∉ numeral 8 r.mode.toNat ++ 32 :: r.path := by
    intro h0
    rw [List.mem_append, List.mem_cons] at h0
    rcases h0 with h0 | h0 | h0
    · exact digit_ne_zero (hdigit 0 h0) rfl
    · exact absurd h0 (by decide)
    · exact hp h0
  have hsp : ∀ c ∈ numeral 8 r.mode.toNat, c ≠ 32 := by
    intro c hc he
    rw [he] at hc
    exact absurd (digit_not_space (hdigit 32 hc)) (by decide)
  have hbytes : r.bytes ++ t = (numeral 8 r.mode.toNat ++ 32 :: r.path) ++ 0 :: (r.sha1 ++ t) := by
    simp only [TreeRecord.bytes, List.append_assoc, List.cons_append]
  have hscan := scanUnsigned_numeral (b := 8) (by decide) (by decide)
    (show r.mode.toNat < 2 ^ 64 by omega) (32 :: r.path) (by simp [isDigit])
  have hpath : ((numeral 8 r.mode.toNat ++ 32 :: r.path).dropWhile (· ≠ 32)).drop 1 = r.path := by
    rw [List.dropWhile_append_of_pos (by simpa using hsp)]
    simp
  have hlen : pre.length + r.bytes.length =
      pre.length + (numeral 8 r.mode.toNat ++ 32 :: r.path).length + 21 := by
    simp only [TreeRecord.bytes, List.length_append, List.length_cons, hs]
    omega
  have hstep := unpackLoop_step hline (by simp) (by
    rw [List.length_append, List.length_cons]
    omega) hs hscan pre t fuel
  rw [hpath, UInt32.ofNat_toNat, ← hbytes, ← hlen] at hstep
  exact hstep

theorem unpackLoop_lines (es : List CacheEntry) (hn : ∀ ce ∈ es, ce.Named)
    (hf : es.length < fuel) (pre : List Byte) :
    unpackLoop (pre ++ treePayload es) fuel pre.length = (es.map CacheEntry.triple, .done) := by
  induction es generalizing fuel pre with
  | nil =>
    obtain ⟨fuel, rfl⟩ : ∃ k, fuel = k + 1 := ⟨fuel - 1, by simp at hf; omega⟩
    rw [unpackLoop, if_pos (by simp [treePayload])]
    rfl
  | cons ce es ih =>
    obtain ⟨fuel, rfl⟩ : ∃ k, fuel = k + 1 := ⟨fuel - 1, by simp at hf; omega⟩
    have hkey : ce.triple.path.length < 2 ^ 16 := by
      rw [CacheEntry.triple, CacheEntry.key_length]
      exact ce.namelen.toNat_lt
    have hrest := ih (fun e he => hn e (List.mem_cons_of_mem _ he))
      (Nat.lt_of_succ_lt_succ hf) (pre ++ ce.triple.bytes)
    rw [List.append_assoc, List.length_append] at hrest
    rw [treePayload, List.flatMap_cons, ← treePayload, unpackLoop_line ce.triple
      (hn ce List.mem_cons_self).no_nul hkey ce.sha1.toList_length, hrest, List.map_cons]

theorem unpackLoop_payload (es : List CacheEntry) (hn : ∀ ce ∈ es, ce.Named)
    (hf : es.length < fuel) :
    unpackLoop (treePayload es) fuel 0 = (es.map CacheEntry.triple, .done) :=
  unpackLoop_lines es hn hf []

theorem treePayload_length_ge (es : List CacheEntry) : es.length ≤ (treePayload es).length := by
  induction es with
  | nil => exact Nat.le_refl _
  | cons ce es ih =>
    simp only [treePayload, List.flatMap_cons, List.length_append, List.length_cons,
      TreeRecord.bytes] at ih ⊢
    omega

def Smooth : (o : Op) → o.Res → Prop
  | .access _, (r : Bool) => r = true
  | .openExcl _, (r : Except Errno Fd) => ∃ fd, r = .ok fd
  | .write _ buf, (r : Int) => r = buf.length
  | _, _ => True

theorem smooth_access (p : Path) (r : Bool) : Smooth (.access p) r ↔ r = true := Iff.rfl

def outcome (a : Option α) : Except Stop α :=
  match a with
  | some a => .ok a
  | none => .error .fault

/-- What `write_tree` hands over, or that it goes wrong before. -/
def handedTree (es : List CacheEntry) : Except Stop (List Byte × Nat) :=
  if es.length * 40 + 400 < 2 ^ 31 then
    outcome (((es.foldlM addTreeEntry ⟨[], es.length * 40 + 400⟩).bind finishTree).map
      fun r => (r.1, r.2 % 2 ^ 32))
  else .error .fault

theorem handedTree_named (hn : ∀ ce ∈ es, ce.Named) : handedTree es =
    if es.length * 40 + 400 < 2 ^ 31 then .ok (treeBytes es, (treeBytes es).length % 2 ^ 32)
    else .error .fault := by
  rw [handedTree]
  split
  · rename_i hsize
    obtain ⟨size, hfold⟩ := addTreeEntry_all es hn ⟨[], es.length * 40 + 400⟩ (by
      simp only [TreeBuffer.offset, origOffset, List.length_nil]
      omega)
    rw [hfold, Option.bind_some, List.nil_append, finishTree_eq]
    rfl
  · rfl

section Building
variable {ok : (o : Op) → o.Res → Prop} (hacc : ∀ p (r : Bool), ok (.access p) r ↔ r = true)
include hacc

theorem addTreeEntries_runs {fs fs' : FS} (es : List CacheEntry) (rest : List (Option CacheEntry))
    (hobj : ∀ ce ∈ es, fs.dir (sha1FileName L ce.sha1) ≠ none) (b : TreeBuffer) :
    RunsTo ok fs (addTreeEntries L es.length (es.map some ++ rest) b) x fs' ↔
      x = outcome (es.foldlM addTreeEntry b) ∧ fs' = fs := by
  induction es generalizing b with
  | nil => exact Prog.runs_pure
  | cons ce es ih =>
    have hrest := ih (fun e he => hobj e (List.mem_cons_of_mem _ he))
    have hce := hobj ce List.mem_cons_self
    have haccess : RunsTo ok fs (addTreeEntries L (ce :: es).length
        ((ce :: es).map some ++ rest) b) x fs' ↔ RunsTo ok fs
          (defined (addTreeEntry b ce) >>= addTreeEntries L es.length (es.map some ++ rest))
            x fs' := by
      simp only [List.length_cons, List.map_cons, List.cons_append, addTreeEntries, runs_access,
        hacc]
      constructor
      · rintro ⟨_, ⟨-, rfl⟩, h⟩
        simpa only [↓reduceIte] using h
      · intro h
        refine ⟨true, ⟨fun _ => hce, rfl⟩, ?_⟩
        simpa only [↓reduceIte] using h
    rw [haccess, runs_defined, List.foldlM_cons, Option.bind_eq_bind]
    cases addTreeEntry b ce with
    | none =>
      simp only [reduceCtorEq, false_and, exists_false, true_and, false_or, Option.bind_none]
      rfl
    | some b₁ =>
      simp only [Option.some.injEq, exists_eq_left', reduceCtorEq, false_and, or_false, hrest,
        Option.bind_some]

theorem buildTree_slots {fs fs' : FS} {es : List CacheEntry}
    (hs : c.activeCache = es.map some ++ rest)
    (hobj : ∀ ce ∈ es, fs.dir (sha1FileName L ce.sha1) ≠ none) :
    RunsTo ok fs (buildTree L es.length c) x fs' ↔ x = handedTree es ∧ fs' = fs := by
  rw [buildTree, handedTree]
  by_cases hsize : es.length * 40 + 400 < 2 ^ 31
  · rw [if_pos hsize, if_pos hsize, hs, runs_seq]
    simp only [addTreeEntries_runs hacc es rest hobj, runs_defined]
    cases es.foldlM addTreeEntry ⟨[], es.length * 40 + 400⟩ with
    | none =>
      constructor
      · rintro (⟨_, _, ⟨h, -⟩, -⟩ | ⟨e, rfl, he, rfl⟩)
        · cases h
        · cases he
          exact ⟨rfl, rfl⟩
      · rintro ⟨rfl, rfl⟩
        exact .inr ⟨.fault, rfl, rfl, rfl⟩
    | some b =>
      cases hfin : finishTree b with
      | none =>
        constructor
        · rintro (⟨_, _, ⟨h, rfl⟩, hrun⟩ | ⟨e, -, he, -⟩)
          · cases h
            simp only [hfin, reduceCtorEq, false_and, exists_false, true_and, false_or] at hrun
            rw [Option.bind_some, hfin]
            exact hrun
          · cases he
        · rintro ⟨rfl, rfl⟩
          exact .inl ⟨b, _, ⟨rfl, rfl⟩, .inr ⟨hfin, by rw [Option.bind_some, hfin]; rfl, rfl⟩⟩
      | some r =>
        constructor
        · rintro (⟨_, _, ⟨h, rfl⟩, hrun⟩ | ⟨e, -, he, -⟩)
          · cases h
            simp only [hfin, Option.some.injEq, exists_eq_left', reduceCtorEq, false_and,
              or_false] at hrun
            rw [Option.bind_some, hfin]
            exact Prog.runs_pure.1 hrun
          · cases he
        · rintro ⟨rfl, rfl⟩
          refine .inl ⟨b, _, ⟨rfl, rfl⟩, .inl ⟨r, hfin, ?_⟩⟩
          rw [Option.bind_some, hfin]
          exact Prog.runs_pure.2 ⟨rfl, rfl⟩
  · rw [if_neg hsize, if_neg hsize]
    exact Prog.runs_halt

theorem buildTree_runs {fs fs' : FS} (hc : c.Holds es)
    (hobj : ∀ ce ∈ es, fs.dir (sha1FileName L ce.sha1) ≠ none) :
    RunsTo ok fs (buildTree L es.length c) x fs' ↔ x = handedTree es ∧ fs' = fs := by
  obtain ⟨rest, hs⟩ := hc.slots
  exact buildTree_slots hacc hs hobj

end Building

/-- What `write_sha1_file` makes of a buffer. -/
def storedFile (L : Lib) (buf : List Byte) : List Byte :=
  deflateInto L [buf] (toInt (L.zlib.deflateBound buf.length))

theorem writeSha1File_new {fs fs' : FS} (hl : buf.length < 2 ^ 32)
    (hd : fs.dir (sha1FileName L (L.sha1 (storedFile L buf))) = none)
    (hp : (sha1FileName L (L.sha1 (storedFile L buf))).length < pathMax) :
    RunsTo Smooth fs (writeSha1File L buf (buf.length % 2 ^ 32)) x fs' ↔
      x = .ok (0, L.sha1 (storedFile L buf)) ∧
        fs' = (fs.create (sha1FileName L (L.sha1 (storedFile L buf)))).append fs.next
          (storedFile L buf) := by
  have hfile : deflateInto L [buf.take (buf.length % 2 ^ 32)]
      (toInt (L.zlib.deflateBound (buf.length % 2 ^ 32))) = storedFile L buf := by
    rw [Nat.mod_eq_of_lt hl, List.take_length, storedFile]
  have hnew : ∀ (y : Except Stop Int) fs₁, RunsTo Smooth fs
      (writeSha1Buffer L (L.sha1 (storedFile L buf)) (storedFile L buf)) y fs₁ ↔ y = .ok 0 ∧
        fs₁ = (fs.create (sha1FileName L (L.sha1 (storedFile L buf)))).append fs.next
          (storedFile L buf) := by
    intro y fs₁
    rw [writeSha1Buffer_new (fun _ _ _ => Iff.rfl) hd]
    constructor
    · rintro (⟨hy, -, -, h⟩ | ⟨-, -, e, -, fd, he⟩)
      · exact ⟨hy, h⟩
      · cases he
    · rintro ⟨hy, h⟩
      exact .inl ⟨hy, hp, ⟨_, rfl⟩, h⟩
  simp only [writeSha1File, hfile, runs_seq, hnew]
  constructor
  · rintro (⟨_, _, ⟨h0, rfl⟩, h⟩ | ⟨e, -, he, -⟩)
    · cases h0
      exact Prog.runs_pure.1 h
    · cases he
  · intro h
    exact .inl ⟨0, _, ⟨rfl, rfl⟩, Prog.runs_pure.2 h⟩

/-- `write_tree` after the cache is loaded: build the tree and store it. -/
def storeTree (L : Lib) (entries : Nat) (c : Cache) : Proc (Int × Sha1) := do
  let (buffer, len) ← buildTree L entries c
  writeSha1File L buffer len

theorem storeTree_runs {fs fs' : FS} (hc : c.Holds es) (hn : ∀ ce ∈ es, ce.Named)
    (hobj : ∀ ce ∈ es, fs.dir (sha1FileName L ce.sha1) ≠ none)
    (hl : (treeBytes es).length < 2 ^ 32)
    (hd : fs.dir (sha1FileName L (L.sha1 (storedFile L (treeBytes es)))) = none)
    (hp : (sha1FileName L (L.sha1 (storedFile L (treeBytes es)))).length < pathMax) :
    RunsTo Smooth fs (storeTree L es.length c) x fs' ↔
      if es.length * 40 + 400 < 2 ^ 31 then
        x = .ok (0, L.sha1 (storedFile L (treeBytes es))) ∧
          fs' = (fs.create (sha1FileName L (L.sha1 (storedFile L (treeBytes es))))).append
            fs.next (storedFile L (treeBytes es))
      else x = .error .fault ∧ fs' = fs := by
  simp only [storeTree, runs_seq, buildTree_runs smooth_access hc hobj, handedTree_named hn]
  split
  · constructor
    · rintro (⟨_, _, ⟨h, rfl⟩, hrun⟩ | ⟨e, -, he, -⟩)
      · cases h
        exact (writeSha1File_new hl hd hp).1 hrun
      · cases he
    · intro h
      exact .inl ⟨_, _, ⟨rfl, rfl⟩, (writeSha1File_new hl hd hp).2 h⟩
  · constructor
    · rintro (⟨_, _, ⟨h, rfl⟩, hrun⟩ | ⟨e, rfl, he, rfl⟩)
      · cases h
      · cases he
        exact ⟨rfl, rfl⟩
    · rintro ⟨rfl, rfl⟩
      exact .inr ⟨.fault, rfl, rfl, rfl⟩

theorem tree_tag : Tag (str "tree") := by
  refine ⟨by decide, by decide, ?_, by decide⟩
  decide +kernel

theorem treeBytes_object (h : (treePayload es).length < 2 ^ 32) :
    treeBytes es = objectBytes (str "tree") (treePayload es) := by
  rw [treeBytes, objectBytes, Nat.mod_eq_of_lt h,
    show str "tree " = str "tree" ++ [32] from by decide]
  simp only [List.append_assoc, List.cons_append, List.nil_append]

theorem unpack_runs {fs fs' : FS} (hn : ∀ ce ∈ es, ce.Named)
    (hread : ∀ x fs', RunsTo Granted fs (readSha1File L s) x fs' ↔
      fs' = fs ∧ x = .ok (some (str "tree", (treePayload es).length, treePayload es))) :
    RunsTo Granted fs (unpack L s) x fs' ↔ fs' = fs ∧ x = .ok (es.map CacheEntry.triple) := by
  have hloop := unpackLoop_payload es hn (Nat.lt_succ_of_le (treePayload_length_ge es))
  simp only [unpack, runs_seq, hread]
  constructor
  · rintro (⟨_, _, ⟨rfl, h⟩, hrun⟩ | ⟨e, -, -, he⟩)
    · cases h
      simp only [↓reduceIte, hloop] at hrun
      exact (Prog.runs_pure.1 hrun).symm
    · cases he
  · rintro ⟨hfs, rfl⟩
    subst fs'
    refine .inl ⟨_, _, ⟨rfl, rfl⟩, ?_⟩
    simp only [↓reduceIte, hloop]
    exact Prog.runs_pure.2 ⟨rfl, rfl⟩

/-- The tree is stored, and it is read and unpacked as the list of the entries. -/
def TreeComesBack (L : Lib) (fs : FS) (c : Cache) (es : List CacheEntry) : Prop :=
  ∃ h fs', (∀ x fs'', RunsTo Smooth fs (storeTree L es.length c) x fs'' ↔
      x = .ok (0, h) ∧ fs'' = fs') ∧
    (∀ x fs'', RunsTo Granted fs' (readSha1File L h) x fs'' ↔
      fs'' = fs' ∧ x = .ok (some (str "tree", (treePayload es).length, treePayload es))) ∧
    ∀ x fs'', RunsTo Granted fs' (unpack L h) x fs'' ↔
      fs'' = fs' ∧ x = .ok (es.map CacheEntry.triple)

/-- The stream, cut to the room there is in an `int`, still inflates to all of the tree. -/
def TreeFits (L : Lib) (es : List CacheEntry) : Prop :=
  (L.zlib.inflate (storedFile L (treeBytes es))).1 = treeBytes es

theorem treeBytes_length_lt (h : (treePayload es).length < 2 ^ 32 - 8192) :
    (treeBytes es).length < 2 ^ 32 := by
  have hnum := numeral_length_le (b := 10) (k := 10) (n := (treePayload es).length % 2 ^ 32)
    (by decide) (by decide) (by omega)
  rw [treeBytes]
  simp only [List.length_append, List.length_cons, show (str "tree ").length = 5 by decide]
  omega

def FS.withTree (fs : FS) (L : Lib) (es : List CacheEntry) : FS :=
  (fs.create (sha1FileName L (L.sha1 (storedFile L (treeBytes es))))).append fs.next
    (storedFile L (treeBytes es))

theorem storedTree_reads {fs : FS} (hz : L.zlib.Lossless)
    (hsize : (treePayload es).length < 2 ^ 32 - 8192)
    (hp : (sha1FileName L (L.sha1 (storedFile L (treeBytes es)))).length < pathMax)
    (hd : fs.dir (sha1FileName L (L.sha1 (storedFile L (treeBytes es)))) = some i)
    (hi : fs.data i = storedFile L (treeBytes es)) :
    (∀ x fs', RunsTo Granted fs (readSha1File L (L.sha1 (storedFile L (treeBytes es)))) x fs' ↔
        fs' = fs ∧ x = .ok (some (str "tree", (treePayload es).length, treePayload es))) ↔
      TreeFits L es := by
  have hobject := treeBytes_object (show (treePayload es).length < 2 ^ 32 by omega)
  have hflat : [treeBytes es].flatten = objectBytes (str "tree") (treePayload es) := by
    rw [List.flatten_cons, List.flatten_nil, List.append_nil, hobject]
  have hread := readSha1File_stored hz tree_tag (by omega) hflat
    (Nat.lt_trans (toInt_toNat_lt (L.zlib.deflateBound (treeBytes es).length)) (by decide))
    hd hp hi
  rw [← hobject] at hread
  exact hread

theorem withTree_reads (fs : FS) (hz : L.zlib.Lossless)
    (hsize : (treePayload es).length < 2 ^ 32 - 8192)
    (hp : (sha1FileName L (L.sha1 (storedFile L (treeBytes es)))).length < pathMax) :
    (∀ x fs', RunsTo Granted (fs.withTree L es)
        (readSha1File L (L.sha1 (storedFile L (treeBytes es)))) x fs' ↔ fs' = fs.withTree L es ∧
          x = .ok (some (str "tree", (treePayload es).length, treePayload es))) ↔
      TreeFits L es :=
  storedTree_reads hz hsize hp (FS.create_append_dir fs _ _)
    (FS.create_append_data fs _ (storedFile L (treeBytes es)))

/-- A tree comes back if and only if the first guess at the size does not overflow and the stream
fits the room that is made for it. -/
theorem tree_round_trip {fs : FS} (hz : L.zlib.Lossless) (hc : c.Holds es)
    (hn : ∀ ce ∈ es, ce.Named) (hsize : (treePayload es).length < 2 ^ 32 - 8192)
    (hobj : ∀ ce ∈ es, fs.dir (sha1FileName L ce.sha1) ≠ none)
    (hd : fs.dir (sha1FileName L (L.sha1 (storedFile L (treeBytes es)))) = none)
    (hp : (sha1FileName L (L.sha1 (storedFile L (treeBytes es)))).length < pathMax) :
    TreeComesBack L fs c es ↔ es.length * 40 + 400 < 2 ^ 31 ∧ TreeFits L es := by
  have hstore := fun x (fs' : FS) => (storeTree_runs hc hn hobj (treeBytes_length_lt hsize) hd hp :
    RunsTo Smooth fs (storeTree L es.length c) x fs' ↔ _)
  have hread := withTree_reads fs hz hsize hp
  by_cases hint : es.length * 40 + 400 < 2 ^ 31
  · simp only [if_pos hint] at hstore
    constructor
    · rintro ⟨h, fs', hrun, hback, -⟩
      obtain ⟨he, rfl⟩ := (hstore _ _).1 ((hrun _ _).2 ⟨rfl, rfl⟩)
      cases he
      exact ⟨hint, hread.1 hback⟩
    · rintro ⟨-, hfits⟩
      have hback := hread.2 hfits
      exact ⟨_, _, hstore, hback, fun x fs'' => unpack_runs hn hback⟩
  · simp only [if_neg hint] at hstore
    constructor
    · rintro ⟨h, fs', hrun, -⟩
      have := (hstore _ _).1 ((hrun _ _).2 ⟨rfl, rfl⟩)
      cases this.1
    · intro h
      exact absurd h.1 hint

theorem newEntry_named (hp : p.1.length < 2 ^ 16) :
    CacheEntry.Named { newEntry p st with sha1 := s } := by
  have hn := newEntry_namelen st hp
  have hb := (cacheEntrySize_bounds p.1.length).1
  obtain ⟨k, hk⟩ : ∃ k, cacheEntrySize p.1.length - nameOffset - p.1.length = k + 1 :=
    ⟨cacheEntrySize p.1.length - nameOffset - p.1.length - 1, by omega⟩
  rw [CacheEntry.Named]
  simp only [hn]
  simp only [newEntry, hk, List.replicate_succ]
  exact strlen_append _ _ p.2

def FS.holding (L : Lib) (s : Sha1) : FS :=
  ⟨Function.update FS.empty.dir (sha1FileName L s) (some 0), fun _ => [], 1⟩

theorem FS.holding_dir (L : Lib) (s : Sha1) : (FS.holding L s).dir (sha1FileName L s) ≠ none := by
  simp only [FS.holding, Function.update_self, ne_eq, reduceCtorEq, not_false_eq_true]

theorem FS.holding_free (h : s' ≠ s) : (FS.holding L s).dir (sha1FileName L s') = none := by
  simp only [FS.holding]
  rw [Function.update_of_ne (fun he => h (sha1FileName_injective he))]
  rfl

def linked (p : CStr) : CacheEntry :=
  { newEntry p (Stat.ofSize 1) with sha1 := List.Vector.replicate 20 1 }

theorem linked_ab (e : CacheEntry) (he : e ∈ [linked (cstr "a"), linked (cstr "b")]) :
    e.Named ∧ e.sha1 = (linked (cstr "a")).sha1 := by
  rcases List.mem_pair.1 he with rfl | rfl
  · exact ⟨newEntry_named (by decide), rfl⟩
  · exact ⟨newEntry_named (by decide), rfl⟩

theorem tree_round_trip_two :
    TreeComesBack storedLib (FS.holding storedLib (linked (cstr "a")).sha1)
      (Cache.ofEntries [linked (cstr "a"), linked (cstr "b")])
      [linked (cstr "a"), linked (cstr "b")] := by
  have hfits : TreeFits storedLib [linked (cstr "a"), linked (cstr "b")] := by
    rw [TreeFits]
    decide +kernel
  exact (tree_round_trip storedZlib_lossless (Cache.ofEntries_holds (by decide))
    (fun ce he => (linked_ab ce he).1) (by decide +kernel)
    (fun ce he => (linked_ab ce he).2 ▸ FS.holding_dir _ _)
    (FS.holding_free (by decide +kernel)) (sha1FileName_stored _)).2 ⟨by decide, hfits⟩

theorem treePayload_replicate (n : Nat) (ce : CacheEntry) :
    (treePayload (List.replicate n ce)).length = n * ce.triple.bytes.length := by
  simp [treePayload, List.length_flatMap]

def longName : CStr := ⟨List.replicate 65535 97, fun h => absurd (List.eq_of_mem_replicate h)
  (by decide)⟩

/-- With 40000 entries of that name, the bound on the stream is negative as an `int`: the object
file is empty. -/
theorem tree_lost : ∃ (fs : FS) (c : Cache) (es : List CacheEntry), c.Holds es ∧ es ≠ [] ∧
    (∀ ce ∈ es, ce.Named ∧ ce.key ≠ []) ∧ (treePayload es).length < 2 ^ 32 - 8192 ∧
    (∀ ce ∈ es, fs.dir (sha1FileName storedLib ce.sha1) ≠ none) ∧
    ¬ TreeComesBack storedLib fs c es := by
  obtain ⟨es, hes⟩ : ∃ es, es = List.replicate 40000 (linked longName) := ⟨_, rfl⟩
  have hname : longName.1.length = 65535 := List.length_replicate
  have hmem : ∀ ce ∈ es, ce = linked longName := by
    intro ce he
    rw [hes] at he
    exact List.eq_of_mem_replicate he
  have hnamed : (linked longName).Named := newEntry_named (by rw [hname]; decide)
  have hnl : (linked longName).namelen.toNat = 65535 :=
    (newEntry_namelen (Stat.ofSize 1) (by rw [hname]; decide)).trans hname
  have hkey : (linked longName).key.length = 65535 := by rw [CacheEntry.key_length, hnl]
  have hrecord : (linked longName).triple.bytes.length = 65563 := by
    rw [CacheEntry.record_length_eq, hnl, show (linked longName).stMode = 0o100644 from rfl]
    decide
  have hpay : (treePayload es).length = 2622520000 := by
    rw [hes, treePayload_replicate, hrecord]
  have hbytes : (treeBytes es).length = 2622520016 := by
    rw [treeBytes, hpay]
    simp only [List.length_append, List.length_cons, hpay]
    decide +kernel
  have hfile : storedFile storedLib (treeBytes es) = [] := by
    rw [storedFile, deflateInto, hbytes, show (toInt (storedLib.zlib.deflateBound
      2622520016)).toNat = 0 by decide, List.take_zero]
  have hlen : es.length = 40000 := by rw [hes, List.length_replicate]
  have hobj : ∀ ce ∈ es, (FS.holding storedLib (linked longName).sha1).dir
      (sha1FileName storedLib ce.sha1) ≠ none := by
    intro ce he
    rw [hmem ce he]
    exact FS.holding_dir _ _
  have hc := Cache.ofEntries_holds (show es.length < 2 ^ 31 by rw [hlen]; decide)
  have hall : ∀ ce ∈ es, ce.Named := fun ce he => hmem ce he ▸ hnamed
  have hsize : (treePayload es).length < 2 ^ 32 - 8192 := by rw [hpay]; decide
  refine ⟨FS.holding storedLib (linked longName).sha1, Cache.ofEntries es, es, hc, ?_,
    fun ce he => ⟨hall ce he, ?_⟩, hsize, hobj, ?_⟩
  · exact List.ne_nil_of_length_pos (by rw [hlen]; decide)
  · rw [hmem ce he]
    exact List.ne_nil_of_length_pos (by rw [hkey]; decide)
  · rintro ⟨h, fs', hrun, hback, -⟩
    have hfree : (FS.holding storedLib (linked longName).sha1).dir (sha1FileName storedLib
        (storedLib.sha1 (storedFile storedLib (treeBytes es)))) = none := by
      rw [hfile]
      exact FS.holding_free (by decide)
    have hstore := (storeTree_runs hc hall hobj (treeBytes_length_lt hsize) hfree
      (sha1FileName_stored _)).1 ((hrun _ _).2 ⟨rfl, rfl⟩)
    rw [if_pos (by rw [hlen]; decide)] at hstore
    obtain ⟨he, rfl⟩ := hstore
    rw [Except.ok.injEq, Prod.mk.injEq] at he
    rw [he.2] at hback
    have hfits := (withTree_reads (FS.holding storedLib (linked longName).sha1)
      storedZlib_lossless hsize (sha1FileName_stored _)).1 hback
    rw [TreeFits, hfile] at hfits
    exact absurd (congrArg List.length hfits) (by rw [hbytes]; decide)

end SelfGit
