import SelfGit.Removal

namespace SelfGit
open Foundation
set_option autoImplicit true

/-- Where the filling loop of `read_cache` stands after so many records. -/
def recordFrom (b : List Byte) : Nat → Nat → Nat
  | offset, 0 => offset
  | offset, k + 1 => recordFrom b (offset + cacheEntrySize (namelenAt (b.drop offset)).toNat) k

/-- Every one of the records that `hdr->entries` counts ends inside the file. -/
def RecordsInside (b : List Byte) : Prop :=
  ∀ k < (wordAt b 8).toNat, recordFrom b headerSize (k + 1) ≤ b.length

/-- The bytes from `offset` on start with so many entries, one behind the other. -/
def HoldsEntries (b : List Byte) (offset n : Nat) : Prop :=
  ∃ (es : List CacheEntry) (tail : List Byte), es.length = n ∧
    b.drop offset = (es.map CacheEntry.block).flatten ++ tail

theorem holdsEntries_succ {b : List Byte} (ho : offset ≤ b.length) :
    HoldsEntries b offset (n + 1) ↔
      offset + cacheEntrySize (namelenAt (b.drop offset)).toNat ≤ b.length ∧
        HoldsEntries b (offset + cacheEntrySize (namelenAt (b.drop offset)).toNat) n := by
  constructor
  · rintro ⟨es, tail, hlen, hb⟩
    cases es with
    | nil => simp at hlen
    | cons e es =>
      rw [List.map_cons, List.flatten_cons, List.append_assoc] at hb
      have hsize : cacheEntrySize (namelenAt (b.drop offset)).toNat = e.block.length := by
        rw [hb, namelenAt_block, CacheEntry.block_length, ceSize]
      have hl := congrArg List.length hb
      rw [List.length_drop, List.length_append] at hl
      rw [hsize]
      refine ⟨by omega, es, tail, by simpa using hlen, ?_⟩
      rw [← List.drop_drop, hb, List.drop_left]
  · rintro ⟨hle, es, tail, hlen, hb⟩
    obtain ⟨e, he⟩ : ∃ e, entryOf (b.drop offset) = some e := by
      rw [entryOf, dif_pos (by rw [List.length_drop]; omega)]
      exact ⟨_, rfl⟩
    obtain ⟨hblock, -, hname, -⟩ := entryOf_some he
    refine ⟨e :: es, tail, by simp [hlen], ?_⟩
    rw [List.map_cons, List.flatten_cons, List.append_assoc, ← hb, hblock, ceSize, hname,
      ← List.drop_drop, List.take_append_drop]

theorem inside_iff {b : List Byte} (ho : offset ≤ b.length) :
    (∀ k < n, recordFrom b offset (k + 1) ≤ b.length) ↔ HoldsEntries b offset n := by
  induction n generalizing offset with
  | zero =>
    simp only [Nat.not_lt_zero, false_imp_iff, implies_true, true_iff]
    exact ⟨[], b.drop offset, rfl, rfl⟩
  | succ n ih =>
    rw [holdsEntries_succ ho]
    constructor
    · intro hall
      have hfirst := hall 0 (Nat.succ_pos n)
      rw [recordFrom, recordFrom] at hfirst
      refine ⟨hfirst, (ih hfirst).1 ?_⟩
      intro k hk
      exact hall (k + 1) (Nat.succ_lt_succ hk)
    · rintro ⟨hfirst, hrest⟩ k hk
      cases k with
      | zero => exact hfirst
      | succ k => exact (ih hfirst).2 hrest k (Nat.lt_of_succ_lt_succ hk)

theorem fillCache_inside {b : List Byte} (hi : i + n ≤ alloc) (ho : offset ≤ b.length)
    (h : HoldsEntries b offset n) : ∃ r, fillCache b alloc n i offset = some r := by
  induction n generalizing i offset with
  | zero => exact ⟨_, rfl⟩
  | succ n ih =>
    obtain ⟨hle, hrest⟩ := (holdsEntries_succ ho).1 h
    have hmin := (cacheEntrySize_bounds (namelenAt (b.drop offset)).toNat).1
    obtain ⟨r, hr⟩ := ih (i := i + 1) (by omega) hle hrest
    rw [fillCache, if_pos (by omega)]
    simp only [hr]
    exact ⟨_, rfl⟩

/-- `read_cache` gives up with the cache as it was, or all the records it visits are in the file. -/
def StaysInside (L : Lib) (b : List Byte) : Prop :=
  ∀ fs x fs', fs.read indexPath = some b → RunsTo anyAnswer fs (readCache L Cache.null) x fs' →
    x = .ok (-1, Cache.null) ∨ (∃ n c, x = .ok (n, c)) ∧ RecordsInside b

theorem readBack_inside (hb : headerSize < b.length) (hv : ¬ verifyHdr L b < 0)
    (hn : (wordAt b 8).toNat ≤ 1431655749)
    (h : HoldsEntries b headerSize (wordAt b 8).toNat) : ∃ n c, readBack L b = .ok (n, c) := by
  have halloc := (le_allocNr_iff (wordAt b 8).toNat_lt).2 hn
  have hroom : 0 + (wordAt b 8).toNat ≤ allocNr (wordAt b 8).toNat := by omega
  obtain ⟨r, hr⟩ := fillCache_inside hroom (Nat.le_of_lt hb) h
  rw [readBack, if_pos hb, loadCache, if_neg hv]
  simp only [hr, Option.map_some]
  exact ⟨_, _, rfl⟩

theorem readBack_ok (hv : ¬ verifyHdr L b < 0) (h : readBack L b = .ok (n, c)) :
    (wordAt b 8).toNat ≤ 1431655749 ∧ 0 ≤ n := by
  rw [readBack] at h
  split at h
  · rw [loadCache, if_neg hv] at h
    cases hf : fillCache b (allocNr (wordAt b 8).toNat) (wordAt b 8).toNat 0 headerSize with
    | none =>
      simp only [hf, Option.map_none] at h
      cases h
    | some r =>
      have hle := (fillCache_length hf).2 (Nat.zero_le _)
      have hlt := allocNr_lt (wordAt b 8).toNat
      simp only [hf, Option.map_some, Except.ok.injEq, Prod.mk.injEq] at h
      rw [toInt_of_lt (by omega)] at h
      refine ⟨(le_allocNr_iff (wordAt b 8).toNat_lt).1 (by omega), ?_⟩
      omega
  · cases h

def withBytes (b : List Byte) : FS :=
  ⟨Function.update FS.empty.dir indexPath (some 0), fun _ => b, 1⟩

theorem withBytes_dir (b : List Byte) : (withBytes b).dir indexPath = some 0 := by
  simp only [withBytes, Function.update_self]

theorem withBytes_read (b : List Byte) : (withBytes b).read indexPath = some b := by
  rw [FS.read, withBytes_dir]
  rfl

/-- `read_cache` stays inside the file if and only if the header is refused, or the file goes on
with as many entries as the header counts and the capacity for them does not wrap. -/
theorem load_stays_inside (hb : headerSize < b.length) (hlt : b.length < 2 ^ 64) :
    StaysInside L b ↔ verifyHdr L b < 0 ∨
      (wordAt b 8).toNat ≤ 1431655749 ∧ HoldsEntries b headerSize (wordAt b 8).toNat := by
  have hrecords : RecordsInside b ↔ HoldsEntries b headerSize (wordAt b 8).toNat :=
    inside_iff (Nat.le_of_lt hb)
  constructor
  · intro hall
    by_cases hv : verifyHdr L b < 0
    · exact .inl hv
    · right
      have hrun := readCache_run (L := L) (withBytes_dir b) hlt
      rcases hall _ _ _ (withBytes_read b) (hrun.mono fun _ _ _ _ ha => ⟨ha.1, trivial⟩) with
        heq | ⟨⟨n, c, heq⟩, hin⟩
      · have hneg := (readBack_ok hv heq).2
        omega
      · exact ⟨(readBack_ok hv heq).1, hrecords.1 hin⟩
  · intro hcond fs x fs' hread hx
    rcases (readCache_outcome hx).2 with heq | heq
    · exact .inl heq
    · rw [hread, readResult] at heq
      subst heq
      rcases hcond with hv | ⟨hn, hent⟩
      · left
        rw [readBack, if_pos hb, loadCache, if_pos hv]
      · by_cases hv : verifyHdr L b < 0
        · left
          rw [readBack, if_pos hb, loadCache, if_pos hv]
        · exact .inr ⟨readBack_inside hb hv hn hent, hrecords.2 hent⟩

theorem load_stays_inside_one :
    StaysInside storedLib (cacheImage storedLib [plainEntry (cstr "a")]) := by
  refine (load_stays_inside (by decide +kernel) (by decide +kernel)).2 (.inr ⟨?_, ?_⟩)
  · decide +kernel
  · exact ⟨[plainEntry (cstr "a")], [], by decide +kernel, by decide +kernel⟩

def shortIndex : List Byte := cacheHeader storedLib 1 [[0]] ++ [0]

/-- The header of a file of 33 bytes promises an entry that is not there. -/
theorem load_leaves_file : ¬ ∀ L b, headerSize < b.length → b.length < 2 ^ 64 →
    StaysInside L b := by
  intro hall
  have hback : readBack storedLib shortIndex = .error .fault := by decide +kernel
  have hrun := readCache_run (L := storedLib) (withBytes_dir shortIndex) (by decide +kernel)
  rw [show (withBytes shortIndex).data 0 = shortIndex from rfl, hback] at hrun
  rcases hall storedLib shortIndex (by decide +kernel) (by decide +kernel) _ _ _
    (withBytes_read shortIndex) (hrun.mono fun _ _ _ _ ha => ⟨ha.1, trivial⟩) with
    heq | ⟨⟨n, c, heq⟩, -⟩
  · cases heq
  · cases heq

end SelfGit
