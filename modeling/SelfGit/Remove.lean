import SelfGit.Foundation.Exec
import SelfGit.MapUpdate
import SelfGit.Reload

namespace SelfGit
open Foundation
set_option autoImplicit true

namespace Remove

/-- `cache_name_pos` of `remove.c` loads the index before it searches. -/
def cacheNamePos (L : Lib) (c : Cache) (name : List Byte) (namelen : Nat) :
    Proc (Int × Cache) := do
  let (entries, c) ← readCache L c
  if entries < 0 then return (-1, c)
  else
    let pos ← defined (SelfGit.cacheNamePos c name namelen)
    return (pos, c)

/-- The loop that moves the slots from `i` on down by one, for at most so many rounds. -/
def shiftDown : Nat → List (Option CacheEntry) → Nat → Nat → Option (List (Option CacheEntry))
  | 0, slots, _, _ => some slots
  | rounds + 1, slots, i, activeNr =>
    if i < activeNr then do
      let ce ← slots[i]?
      let slots ← store slots (i - 1) ce
      shiftDown rounds slots (i + 1) activeNr
    else some slots

/-- The position is also printed. The missing result is not used. -/
def removeFileFromCache (L : Lib) (c : Cache) (path : Path) : Proc (Int × Cache) := do
  let (pos, c) ← cacheNamePos L c path path.length
  if pos < 0 then
    let slots ← defined (shiftDown c.activeNr c.activeCache ((-pos - 1).toNat + 1) c.activeNr)
    return (pos, { c with activeCache := slots, activeNr := (c.activeNr + 2 ^ 32 - 1) % 2 ^ 32 })
  else return (pos, c)

/-- The names of the first entries, each up to its NUL. -/
def printNames : Nat → List (Option CacheEntry) → Option (List (List Byte))
  | 0, _ => some []
  | n + 1, some ce :: slots => do
    let k ← strlen ce.name
    let names ← printNames n slots
    some (ce.name.take k :: names)
  | _ + 1, _ => none

end Remove

/-- The position and the names that are printed. Nothing keeps `argv[2]` from being missing. -/
def removeFunction (L : Lib) (argv : List CStr) : Proc (Int × List (List Byte)) := do
  match argv[2]? with
  | none => Prog.halt .fault
  | some path =>
    let (pos, c) ← Remove.removeFileFromCache L Cache.null path.1
    let names ← defined (Remove.printNames c.activeNr c.activeCache)
    return (pos, names)

def Cache.entries (c : Cache) : List CacheEntry := (c.activeCache.take c.activeNr).reduceOption

theorem Cache.Holds.entries_eq (h : Cache.Holds c es) : c.entries = es := by
  obtain ⟨rest, hs⟩ := h.slots
  rw [Cache.entries, hs, h.nr, List.take_left' (List.length_map _)]
  simp [List.reduceOption]

/-- Later processes find the index without that name, and all other entries in their order. -/
def Durable (L : Lib) (fs : FS) (c : Cache) (path : Path) : Prop :=
  ∀ y fs', RunsTo Granted fs (readCache L Cache.null) y fs' →
    ∃ n c', y = .ok (n, c') ∧ c'.entries = others c.entries path

section Looking
variable {ok : (o : Op) → o.Res → Prop} {fs fs' : FS}

theorem seq_same {x : Except Stop β} {p : Proc α} {f : α → Proc β}
    (h : RunsTo ok fs (p >>= f) x fs') (hp : ∀ y fs₁, RunsTo ok fs p y fs₁ → fs₁ = fs)
    (hf : ∀ a y fs₁, RunsTo ok fs (f a) y fs₁ → fs₁ = fs) : fs' = fs := by
  rcases (runs_seq p f).1 h with ⟨a, fs₁, ha, hrest⟩ | ⟨e, rfl, he⟩
  · obtain rfl := hp _ _ ha
    exact hf a _ _ hrest
  · exact hp _ _ he

theorem seq_ends {p : Proc α} {f : α → Proc β} (hp : ∃ x, RunsTo ok fs p x fs)
    (hf : ∀ a, ∃ y, RunsTo ok fs (f a) y fs) : ∃ y, RunsTo ok fs (p >>= f) y fs := by
  obtain ⟨x, hx⟩ := hp
  cases x with
  | error e => exact ⟨.error e, (runs_seq p f).2 (.inr ⟨e, rfl, hx⟩)⟩
  | ok a =>
    obtain ⟨y, hy⟩ := hf a
    exact ⟨y, (runs_seq p f).2 (.inl ⟨a, fs, hx, hy⟩)⟩

theorem defined_same {a : Option α} (h : RunsTo ok fs (defined a) x fs') : fs' = fs := by
  rcases (Prog.runs_ofOption a Stop.fault).1 h with ⟨b, -, -, hfs⟩ | ⟨-, -, hfs⟩
  · exact hfs
  · exact hfs

theorem defined_ends (a : Option α) : ∃ x, RunsTo ok fs (defined a) x fs := by
  cases a with
  | none => exact ⟨_, (Prog.runs_ofOption none Stop.fault).2 (.inr ⟨rfl, rfl, rfl⟩)⟩
  | some b => exact ⟨_, (Prog.runs_ofOption (some b) Stop.fault).2 (.inl ⟨b, rfl, rfl, rfl⟩)⟩

theorem pure_same {a : α} (h : RunsTo ok fs (pure a : Proc α) x fs') : fs' = fs :=
  (Prog.runs_pure.1 h).2

theorem pure_ends (a : α) : ∃ x, RunsTo ok fs (pure a : Proc α) x fs :=
  ⟨_, Prog.runs_pure.2 ⟨rfl, rfl⟩⟩

theorem Remove.cacheNamePos_same
    (h : RunsTo ok fs (Remove.cacheNamePos L Cache.null name namelen) x fs') : fs' = fs := by
  apply seq_same h
  · intro y fs₁ hy
    exact (readCache_outcome hy).1
  · rintro ⟨entries, c⟩ y fs₁ hy
    dsimp only at hy
    split at hy
    · exact pure_same hy
    · exact seq_same hy (fun _ _ => defined_same) fun _ _ _ => pure_same

theorem Remove.cacheNamePos_ends (hr : ∃ x, RunsTo ok fs (readCache L Cache.null) x fs) :
    ∃ x, RunsTo ok fs (Remove.cacheNamePos L Cache.null name namelen) x fs := by
  apply seq_ends hr
  rintro ⟨entries, c⟩
  dsimp only
  split
  · exact pure_ends _
  · exact seq_ends (defined_ends _) fun _ => pure_ends _

theorem removeFunction_same (h : RunsTo ok fs (removeFunction L argv) x fs') : fs' = fs := by
  rw [removeFunction] at h
  split at h
  · exact (Prog.runs_halt.1 h).2
  · apply seq_same h
    · intro y fs₁ hy
      apply seq_same hy
      · intro z fs₂ hz
        exact Remove.cacheNamePos_same hz
      · rintro ⟨pos, c⟩ z fs₂ hz
        dsimp only at hz
        split at hz
        · exact seq_same hz (fun _ _ => defined_same) fun _ _ _ => pure_same
        · exact pure_same hz
    · rintro ⟨pos, c⟩ y fs₁ hy
      exact seq_same hy (fun _ _ => defined_same) fun _ _ _ => pure_same

theorem removeFunction_ends (hr : ∃ x, RunsTo ok fs (readCache L Cache.null) x fs) :
    ∃ x, RunsTo ok fs (removeFunction L argv) x fs := by
  rw [removeFunction]
  split
  · exact ⟨_, Prog.runs_halt.2 ⟨rfl, rfl⟩⟩
  · apply seq_ends
    · apply seq_ends (Remove.cacheNamePos_ends hr)
      rintro ⟨pos, c⟩
      dsimp only
      split
      · exact seq_ends (defined_ends _) fun _ => pure_ends _
      · exact pure_ends _
    · rintro ⟨pos, c⟩
      exact seq_ends (defined_ends _) fun _ => pure_ends _

end Looking

/-- No removal is durable: of an index that can be loaded with an entry of that name, every run of
`remove_function` leaves one that loads just the same. -/
theorem removal_not_durable {path : CStr}
    (hload : RunsTo Granted fs (readCache L Cache.null) (.ok (n, c)) fs₁)
    (hp : ∃ e ∈ c.entries, e.key = path.1) (arg₀ arg₁ : CStr) (rest : List CStr) :
    (∃ x fs', RunsTo Granted fs (removeFunction L (arg₀ :: arg₁ :: path :: rest)) x fs') ∧
      ∀ x fs', RunsTo anyAnswer fs (removeFunction L (arg₀ :: arg₁ :: path :: rest)) x fs' →
        (∀ y fs'', RunsTo Granted fs' (readCache L Cache.null) y fs'' → y = .ok (n, c)) ∧
          ¬ Durable L fs' c path.1 := by
  obtain ⟨rfl, hout⟩ := readCache_outcome hload
  have hnull : c ≠ Cache.null := by
    rintro rfl
    obtain ⟨e, he, -⟩ := hp
    cases he
  obtain ⟨i, hd⟩ : ∃ i, fs₁.dir indexPath = some i := by
    cases hd : fs₁.dir indexPath with
    | some i => exact ⟨i, rfl⟩
    | none =>
      rw [FS.read, hd] at hout
      rcases hout with hout | hout
      · cases hout
        exact absurd rfl hnull
      · cases hout
        exact absurd rfl hnull
  obtain ⟨-, hback⟩ := readCache_result hd hload
  constructor
  · obtain ⟨x, hx⟩ := removeFunction_ends ⟨_, hload⟩
    exact ⟨x, _, hx⟩
  · intro x fs' hx
    obtain rfl := removeFunction_same hx
    constructor
    · intro y fs'' hy
      rw [(readCache_result hd hy).2, hback]
    · intro hdur
      obtain ⟨n', c', heq, hent⟩ := hdur _ _ hload
      cases heq
      obtain ⟨e, he, hk⟩ := hp
      rw [hent, others, List.mem_filter] at he
      exact absurd hk (by simpa using he.2)

def oneEntry (e : CacheEntry) : FS :=
  ⟨Function.update FS.empty.dir indexPath (some 0), fun _ => cacheImage storedLib [e], 1⟩

theorem oneEntry_loads : RunsTo Granted (oneEntry (plainEntry (cstr "a")))
    (readCache storedLib Cache.null) (.ok (1, reloaded [plainEntry (cstr "a")]))
    (oneEntry (plainEntry (cstr "a"))) := by
  have hd : (oneEntry (plainEntry (cstr "a"))).dir indexPath = some 0 := by
    simp only [oneEntry, Function.update_self]
  have hlt : [plainEntry (cstr "a")].length < 2 ^ 31 := by decide
  rw [readCache_runs hd (cacheImage_length_lt storedLib hlt)]
  refine ⟨rfl, ?_⟩
  rw [show (oneEntry (plainEntry (cstr "a"))).data 0 =
    cacheImage storedLib [plainEntry (cstr "a")] from rfl, readBack_image hlt,
    if_pos (by decide)]
  rfl

theorem removal_not_durable_one :
    (∃ x fs', RunsTo Granted (oneEntry (plainEntry (cstr "a")))
      (removeFunction storedLib [cstr "git", cstr "--rm", cstr "a"]) x fs') ∧
    ∀ x fs', RunsTo anyAnswer (oneEntry (plainEntry (cstr "a")))
      (removeFunction storedLib [cstr "git", cstr "--rm", cstr "a"]) x fs' →
      (∀ y fs'', RunsTo Granted fs' (readCache storedLib Cache.null) y fs'' →
        y = .ok (1, reloaded [plainEntry (cstr "a")])) ∧
        ¬ Durable storedLib fs' (reloaded [plainEntry (cstr "a")]) (cstr "a").1 := by
  have hp : ∃ e ∈ (reloaded [plainEntry (cstr "a")]).entries, e.key = (cstr "a").1 := by
    decide
  exact removal_not_durable oneEntry_loads hp (cstr "git") (cstr "--rm") []

/-- The only entry is removed, nothing is left to be printed, and the next process finds it
there. -/
theorem removal_forgotten :
    RunsTo anyAnswer (oneEntry (plainEntry (cstr "a")))
      (removeFunction storedLib [cstr "git", cstr "--rm", cstr "a"]) (.ok (-1, []))
      (oneEntry (plainEntry (cstr "a"))) ∧
    RunsTo Granted (oneEntry (plainEntry (cstr "a"))) (readCache storedLib Cache.null)
      (.ok (1, reloaded [plainEntry (cstr "a")])) (oneEntry (plainEntry (cstr "a"))) ∧
    (∃ e ∈ (reloaded [plainEntry (cstr "a")]).entries, e.key = (cstr "a").1) ∧
    ¬ Durable storedLib (oneEntry (plainEntry (cstr "a"))) (reloaded [plainEntry (cstr "a")])
      (cstr "a").1 := by
  have hrun : (Prog.exec (FS.serve []) FS.step 6 (oneEntry (plainEntry (cstr "a")))
      (removeFunction storedLib [cstr "git", cstr "--rm", cstr "a"])).map Prod.fst =
      some (.ok (-1, [])) := by
    decide +kernel
  obtain ⟨⟨x, fs'⟩, hexec, rfl : x = _⟩ := Option.map_eq_some_iff.1 hrun
  have hruns : RunsTo anyAnswer (oneEntry (plainEntry (cstr "a")))
      (removeFunction storedLib [cstr "git", cstr "--rm", cstr "a"]) (.ok (-1, [])) fs' :=
    Prog.exec_runs (fun _ _ _ h => ⟨h, trivial⟩) hexec
  obtain rfl := removeFunction_same hruns
  refine ⟨hruns, oneEntry_loads, by decide, ?_⟩
  intro hdur
  obtain ⟨n, c, heq, hent⟩ := hdur _ _ oneEntry_loads
  cases heq
  exact absurd hent (by decide)

end SelfGit
