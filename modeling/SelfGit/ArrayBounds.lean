import SelfGit.IndexBounds
import SelfGit.UpdateCacheTerms

namespace SelfGit
open Foundation
set_option autoImplicit true

/-- The slots that the filling loop of `read_cache` stores into, as long as it finds records. -/
def fillStores (map : List Byte) : Nat → Nat → Nat → List Nat
  | 0, _, _ => []
  | rounds + 1, i, offset =>
    if offset + nameOffset ≤ map.length then
      i :: fillStores map rounds (i + 1)
        (offset + cacheEntrySize (namelenAt (map.drop offset)).toNat)
    else []

/-- A call that changes the array. -/
inductive Call where
  | addCacheEntry (ce : CacheEntry)
  | removeFileFromCache (path : Path)

def Call.run (c : Cache) : Call → Option Cache
  | .addCacheEntry ce => SelfGit.addCacheEntry c ce
  | .removeFileFromCache path => SelfGit.removeFileFromCache c path

def Call.search (c : Cache) : Call → Option Int
  | .addCacheEntry ce => cacheNamePos c ce.name ce.namelen.toNat
  | .removeFileFromCache path => cacheNamePos c path path.length

/-- The slots that a call stores into once the search has come to a position. -/
def Call.stores (c : Cache) (pos : Int) : Call → List Nat
  | .addCacheEntry _ =>
    if pos < 0 then [(-pos - 1).toNat]
    else
      let activeNr := (c.activeNr + 1) % 2 ^ 32
      (if activeNr > pos.toNat then List.range' (pos.toNat + 1) (activeNr - pos.toNat - 1)
        else []) ++ [pos.toNat]
  | .removeFileFromCache _ =>
    let activeNr := (c.activeNr + 2 ^ 32 - 1) % 2 ^ 32
    if pos < 0 ∧ (-pos - 1).toNat < activeNr then
      List.range' (-pos - 1).toNat (activeNr - (-pos - 1).toNat - 1)
    else []

/-- The capacity of the array at that time. A full one is reallocated for a new name. -/
def Call.alloc (c : Cache) (pos : Int) : Call → Nat
  | .addCacheEntry _ =>
    if 0 ≤ pos ∧ c.activeNr = c.activeAlloc then c.grow.activeAlloc else c.activeAlloc
  | .removeFileFromCache _ => c.activeAlloc

def Call.Inside (c : Cache) (call : Call) : Prop :=
  ∀ pos, call.search c = some pos → ∀ i ∈ call.stores c pos, i < call.alloc c pos

def KeepsInside : Cache → List Call → Prop
  | c, [] => c.activeNr ≤ c.activeAlloc
  | c, call :: calls => c.activeNr ≤ c.activeAlloc ∧ call.Inside c ∧
    ∀ c', call.run c = some c' → KeepsInside c' calls

def Call.Roomy (c : Cache) : Call → Prop
  | .addCacheEntry ce => ∀ pos, cacheNamePos c ce.name ce.namelen.toNat = some pos → 0 ≤ pos →
    c.activeNr = c.activeAlloc → c.activeAlloc ≤ 1431655749
  | .removeFileFromCache _ => True

def AllRoomy : Cache → List Call → Prop
  | _, [] => True
  | c, call :: calls => call.Roomy c ∧ ∀ c', call.run c = some c' → AllRoomy c' calls

theorem Call.run_shape (h : Cache.Shape c) {call : Call} (hr : call.run c = some c') :
    c'.Shape := by
  cases call with
  | addCacheEntry ce => exact addCacheEntry_shape h hr
  | removeFileFromCache path => exact removeFileFromCache_shape h hr

section Stores
variable {c : Cache} (h : c.Shape)
include h

theorem removal_inside (path : Path) : (Call.removeFileFromCache path).Inside c := by
  intro pos hpos i hi
  have hnr := h.nr
  have hal := h.alloc
  simp only [Call.search] at hpos
  have hrange := h.search hpos
  simp only [Call.stores] at hi
  rw [Call.alloc]
  split at hi
  · rw [List.mem_range'_1] at hi
    omega
  · cases hi

/-- A full array has to be replaced by a larger one, and that is all there is to it. -/
theorem addition_inside_iff (ce : CacheEntry) :
    (Call.addCacheEntry ce).Inside c ↔ (Call.addCacheEntry ce).Roomy c := by
  have hnr := h.nr
  have hal := h.alloc
  constructor
  · intro hin pos hpos h0 hfull
    have hrange := h.search hpos
    by_contra hbig
    have hlast : c.activeNr ∈ (Call.addCacheEntry ce).stores c pos := by
      simp only [Call.stores]
      rw [if_neg (by omega), Nat.mod_eq_of_lt (by omega), if_pos (by omega), List.mem_append,
        List.mem_range'_1, List.mem_singleton]
      omega
    have hstore := hin pos hpos _ hlast
    have hgrow := le_allocNr_iff (show c.activeAlloc < 2 ^ 32 by omega)
    rw [Call.alloc, if_pos ⟨h0, hfull⟩] at hstore
    simp only [Cache.grow] at hstore
    omega
  · intro hroomy pos hpos i hi
    simp only [Call.search] at hpos
    have hrange := h.search hpos
    have hgrow := hroomy pos hpos
    simp only [Call.stores] at hi
    rw [Call.alloc]
    split at hi
    · rw [if_neg (by omega)]
      rw [List.mem_singleton] at hi
      omega
    · rw [Nat.mod_eq_of_lt (by omega), if_pos (by omega), List.mem_append, List.mem_range'_1,
        List.mem_singleton] at hi
      split
      · rename_i hfull
        have hle := hgrow hfull.1 hfull.2
        simp only [Cache.grow]
        rw [allocNr_eq (by omega)]
        omega
      · omega

theorem Call.inside_iff (call : Call) : call.Inside c ↔ call.Roomy c := by
  cases call with
  | addCacheEntry ce => exact addition_inside_iff h ce
  | removeFileFromCache path => exact iff_of_true (removal_inside h path) trivial

end Stores

theorem keepsInside_iff (h : Cache.Shape c) (calls : List Call) :
    KeepsInside c calls ↔ AllRoomy c calls := by
  induction calls generalizing c with
  | nil => exact iff_of_true h.nr trivial
  | cons call calls ih =>
    have hrest : (∀ c', call.run c = some c' → KeepsInside c' calls) ↔
        ∀ c', call.run c = some c' → AllRoomy c' calls := by
      apply forall_congr'
      intro c'
      apply imp_congr_right
      intro hrun
      exact ih (Call.run_shape h hrun)
    rw [KeepsInside, AllRoomy, Call.inside_iff h, hrest]
    exact and_iff_right h.nr

theorem fillStores_lt (hx : x ∈ fillStores map rounds i offset) : x < i + rounds := by
  induction rounds generalizing i offset with
  | zero => cases hx
  | succ rounds ih =>
    rw [fillStores] at hx
    split at hx
    · rcases List.mem_cons.1 hx with rfl | hx
      · omega
      · have hlt := ih hx
        omega
    · cases hx

theorem loadCache_nonneg (hv : ¬ verifyHdr L b < 0) (hn : (wordAt b 8).toNat ≤ 1431655749)
    (h : loadCache L c b = some (n, c')) : 0 ≤ n := by
  rw [loadCache, if_neg hv, Option.map_eq_some_iff] at h
  obtain ⟨r, -, he⟩ := h
  rw [Prod.mk.injEq, toInt_of_lt (by omega)] at he
  omega

/-- The entries are within the array in every state, and so is every store. -/
structure ArrayInside (L : Lib) (b : List Byte) (calls : List Call) : Prop where
  counted : (wordAt b 8).toNat ≤ allocNr (wordAt b 8).toNat
  filled : ∀ i ∈ fillStores b (wordAt b 8).toNat 0 headerSize, i < allocNr (wordAt b 8).toNat
  kept : ∀ n c, loadCache L Cache.null b = some (n, c) → KeepsInside c calls

/-- The array never overflows if and only if neither the capacity for the entries that the header
counts wraps around, nor that of a full array for which a new name comes. -/
theorem array_inside (hv : ¬ verifyHdr L b < 0) (calls : List Call) : ArrayInside L b calls ↔
    (wordAt b 8).toNat ≤ 1431655749 ∧
      ∀ n c, loadCache L Cache.null b = some (n, c) → AllRoomy c calls := by
  have hcount := le_allocNr_iff (wordAt b 8).toNat_lt
  constructor
  · intro h
    have hn := hcount.1 h.counted
    refine ⟨hn, ?_⟩
    intro n c hload
    exact (keepsInside_iff (loadCache_shape hload (loadCache_nonneg hv hn hload)) calls).1
      (h.kept n c hload)
  · rintro ⟨hn, hcalls⟩
    refine ⟨hcount.2 hn, ?_, ?_⟩
    · intro i hi
      have hlt := fillStores_lt hi
      have hle := hcount.2 hn
      omega
    · intro n c hload
      exact (keepsInside_iff (loadCache_shape hload (loadCache_nonneg hv hn hload)) calls).2
        (hcalls n c hload)

/-- An index of one entry, to which another is added. -/
theorem array_inside_one :
    ArrayInside storedLib (cacheImage storedLib [plainEntry (cstr "a")])
      [.addCacheEntry (plainEntry (cstr "b")), .removeFileFromCache (str "a")] := by
  refine (array_inside (by decide +kernel) _).2 ⟨by decide +kernel, ?_⟩
  intro n c hload
  have hcounts : (loadCache storedLib Cache.null (cacheImage storedLib [plainEntry (cstr "a")])).map
      (fun r => (r.2.activeNr, r.2.activeAlloc)) = some (1, 25) := by
    decide +kernel
  rw [hload, Option.map_some, Option.some.injEq, Prod.mk.injEq] at hcounts
  dsimp only at hcounts
  refine ⟨?_, fun _ _ => ⟨trivial, fun _ _ => trivial⟩⟩
  intro pos _ _ hfull
  omega

/-- Two entries under a header that counts 1431655750: the capacity for so many is one. -/
def overcounted : List Byte :=
  cacheHeader storedLib 1431655750 (List.replicate 2 (plainEntry (cstr "a")).block) ++
    (List.replicate 2 (plainEntry (cstr "a")).block).flatten

/-- The second of them is stored behind the array. -/
theorem array_overflows : ¬ ∀ L b calls, headerSize < b.length → ¬ verifyHdr L b < 0 →
    ArrayInside L b calls := by
  intro hall
  have hin := hall storedLib overcounted [] (by decide +kernel) (by decide +kernel)
  have hstore : 1 ∈ fillStores overcounted (wordAt overcounted 8).toNat 0 headerSize := by
    decide +kernel
  exact absurd (hin.filled 1 hstore) (by decide +kernel)

end SelfGit
