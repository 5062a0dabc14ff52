import SelfGit.Foundation.Text

namespace SelfGit
open Foundation
set_option autoImplicit true

abbrev Path := List Byte
abbrev Sha1 := List.Vector Byte 20

def cacheSignature : Nat := 0x44495243

/-- `sizeof(struct cache_header)`: three words and the hash. -/
def headerSize : Nat := 32

/-- `offsetof(struct cache_entry, name)`: ten words, the hash and the name length. -/
def nameOffset : Nat := 62

/-- Room for the fixed part, the name and at least one NUL, rounded down to a multiple of eight. -/
def cacheEntrySize (len : Nat) : Nat := (nameOffset + len + 8) / 8 * 8

structure CacheTime where
  sec : UInt32
  nsec : UInt32
  deriving DecidableEq

/-- A cache entry with the memory behind its flexible array member. -/
@[ext] structure CacheEntry where
  ctime : CacheTime
  mtime : CacheTime
  stDev : UInt32
  stIno : UInt32
  stMode : UInt32
  stUid : UInt32
  stGid : UInt32
  stSize : UInt32
  sha1 : Sha1
  namelen : UInt16
  name : List Byte
  room : cacheEntrySize namelen.toNat ≤ nameOffset + name.length
  deriving DecidableEq

def ceSize (ce : CacheEntry) : Nat := cacheEntrySize ce.namelen.toNat

/-- The name as the length-delimited comparison sees it. -/
def CacheEntry.key (ce : CacheEntry) : List Byte := ce.name.take ce.namelen.toNat

def CacheEntry.words (ce : CacheEntry) : List UInt32 :=
  [ce.ctime.sec, ce.ctime.nsec, ce.mtime.sec, ce.mtime.nsec, ce.stDev, ce.stIno, ce.stMode,
    ce.stUid, ce.stGid, ce.stSize]

def wordBytes (ws : List UInt32) : List Byte := ws.flatMap fun w => toLE 4 w.toNat

/-- The memory of an entry, in the native byte order of the machine. -/
def CacheEntry.bytes (ce : CacheEntry) : List Byte :=
  wordBytes ce.words ++ ce.sha1.toList ++ toLE 2 ce.namelen.toNat ++ ce.name

/-- The `ce_size` bytes at an entry, which is what the index file holds of it. -/
def CacheEntry.block (ce : CacheEntry) : List Byte := ce.bytes.take (ceSize ce)

def wordAt (m : List Byte) (k : Nat) : UInt32 := UInt32.ofNat (ofLE ((m.drop k).take 4))

def namelenAt (m : List Byte) : UInt16 := UInt16.ofNat (ofLE ((m.drop 60).take 2))

theorem cacheEntrySize_bounds (len : Nat) :
    nameOffset + len < cacheEntrySize len ∧ cacheEntrySize len ≤ nameOffset + len + 8 := by
  simp only [cacheEntrySize, nameOffset]
  omega

theorem cacheEntrySize_min (len : Nat) : 64 ≤ cacheEntrySize len := by
  simp only [cacheEntrySize, nameOffset]
  omega

theorem nameOffset_lt_ceSize (ce : CacheEntry) : nameOffset + ce.namelen.toNat < ceSize ce :=
  (cacheEntrySize_bounds _).1

theorem CacheEntry.namelen_lt (ce : CacheEntry) : ce.namelen.toNat < ce.name.length := by
  have hb := nameOffset_lt_ceSize ce
  have hr := ce.room
  simp only [ceSize] at hb
  omega

@[simp] theorem CacheEntry.key_length (ce : CacheEntry) : ce.key.length = ce.namelen.toNat := by
  have h := ce.namelen_lt
  simp only [CacheEntry.key, List.length_take]
  omega

theorem sha1At_length {m : List Byte} (h : cacheEntrySize len ≤ m.length) :
    ((m.drop 40).take 20).length = 20 := by
  have hmin := cacheEntrySize_min len
  simp only [List.length_take, List.length_drop]
  omega

theorem nameAt_room {m : List Byte} (h : cacheEntrySize len ≤ m.length) :
    cacheEntrySize len ≤
      nameOffset + ((m.drop nameOffset).take (cacheEntrySize len - nameOffset)).length := by
  simp only [List.length_take, List.length_drop]
  omega

/-- The entry whose struct starts at `m`, if all its `ce_size` bytes are there. -/
def entryOf (m : List Byte) : Option CacheEntry :=
  if h : cacheEntrySize (namelenAt m).toNat ≤ m.length then
    some
      { ctime := ⟨wordAt m 0, wordAt m 4⟩
        mtime := ⟨wordAt m 8, wordAt m 12⟩
        stDev := wordAt m 16
        stIno := wordAt m 20
        stMode := wordAt m 24
        stUid := wordAt m 28
        stGid := wordAt m 32
        stSize := wordAt m 36
        sha1 := ⟨(m.drop 40).take 20, sha1At_length h⟩
        namelen := namelenAt m
        name := (m.drop nameOffset).take (cacheEntrySize (namelenAt m).toNat - nameOffset)
        room := nameAt_room h }
  else none

@[simp] theorem wordBytes_length (ws : List UInt32) : (wordBytes ws).length = 4 * ws.length := by
  induction ws with
  | nil => rfl
  | cons w ws ih =>
    simp only [wordBytes, List.flatMap_cons, List.length_append, toLE_length,
      List.length_cons] at ih ⊢
    omega

theorem wordAt_words (ws : List UInt32) (t : List Byte) (i : Nat) (hi : i < ws.length) :
    wordAt (wordBytes ws ++ t) (4 * i) = ws[i] := by
  induction ws generalizing i with
  | nil => simp at hi
  | cons w ws ih =>
    have hw : wordBytes (w :: ws) ++ t = toLE 4 w.toNat ++ (wordBytes ws ++ t) := by
      simp only [wordBytes, List.flatMap_cons, List.append_assoc]
    cases i with
    | zero =>
      have hlt := w.toNat_lt
      rw [hw, wordAt, Nat.mul_zero, List.drop_zero, List.take_left' (toLE_length _ _), ofLE_toLE,
        Nat.mod_eq_of_lt (by omega), UInt32.ofNat_toNat, List.getElem_cons_zero]
    | succ i =>
      have hd : (wordBytes (w :: ws) ++ t).drop (4 * (i + 1)) =
          (wordBytes ws ++ t).drop (4 * i) := by
        rw [hw, show 4 * (i + 1) = (toLE 4 w.toNat).length + 4 * i by simp; omega,
          List.drop_append, List.drop_eq_nil_of_le (by omega), List.nil_append]
        congr 1
        omega
      rw [wordAt, hd]
      simp only [List.getElem_cons_succ]
      exact ih i _

theorem toLE_wordAt (m : List Byte) (hk : k + 4 ≤ m.length) :
    toLE 4 (wordAt m k).toNat = (m.drop k).take 4 := by
  have hl : ((m.drop k).take 4).length = 4 := by
    simp only [List.length_take, List.length_drop]
    omega
  have hlt := ofLE_lt ((m.drop k).take 4)
  have hr := toLE_ofLE ((m.drop k).take 4)
  rw [hl] at hlt hr
  rw [wordAt, UInt32.toNat_ofNat', Nat.mod_eq_of_lt (by omega), hr]

theorem wordBytes_wordAt (m : List Byte) (hk : 4 * k ≤ m.length) :
    wordBytes ((List.range k).map fun i => wordAt m (4 * i)) = m.take (4 * k) := by
  induction k with
  | zero => simp only [List.range_zero, List.map_nil, wordBytes, List.flatMap_nil, Nat.mul_zero,
      List.take_zero]
  | succ k ih =>
    have hw := toLE_wordAt (k := 4 * k) m (by omega)
    simp only [wordBytes] at ih
    simp only [wordBytes, List.range_succ, List.map_append, List.map_cons, List.map_nil,
      List.flatMap_append, List.flatMap_cons, List.flatMap_nil, List.append_nil,
      ih (by omega), hw, Nat.mul_succ, List.take_add]

@[simp] theorem CacheEntry.bytes_length (ce : CacheEntry) :
    ce.bytes.length = nameOffset + ce.name.length := by
  simp only [CacheEntry.bytes, List.length_append, wordBytes_length, CacheEntry.words,
    List.length_cons, List.length_nil, List.Vector.toList_length, toLE_length, nameOffset]

@[simp] theorem CacheEntry.block_length (ce : CacheEntry) : ce.block.length = ceSize ce := by
  have hr := ce.room
  simp only [CacheEntry.block, List.length_take, CacheEntry.bytes_length, ceSize]
  omega

theorem CacheEntry.trim_room (ce : CacheEntry) : cacheEntrySize ce.namelen.toNat ≤
    nameOffset + (ce.name.take (ceSize ce - nameOffset)).length := by
  have hr := ce.room
  simp only [List.length_take, ceSize]
  omega

/-- The entry with the memory behind its `ce_size` bytes forgotten. -/
def CacheEntry.trim (ce : CacheEntry) : CacheEntry :=
  { ce with
    name := ce.name.take (ceSize ce - nameOffset)
    room := ce.trim_room }

theorem CacheEntry.block_eq (ce : CacheEntry) :
    ce.block = wordBytes ce.words ++ (ce.sha1.toList ++ (toLE 2 ce.namelen.toNat ++
      ce.name.take (ceSize ce - nameOffset))) := by
  have hb := nameOffset_lt_ceSize ce
  have hp : (wordBytes ce.words ++ ce.sha1.toList ++ toLE 2 ce.namelen.toNat).length =
      nameOffset := by
    simp only [List.length_append, wordBytes_length, CacheEntry.words, List.length_cons,
      List.length_nil, List.Vector.toList_length, toLE_length, nameOffset]
  rw [CacheEntry.block, CacheEntry.bytes, List.take_append, hp,
    List.take_of_length_le (by omega), List.append_assoc, List.append_assoc]

theorem namelenAt_block (ce : CacheEntry) (t : List Byte) :
    namelenAt (ce.block ++ t) = ce.namelen := by
  have hlt := ce.namelen.toNat_lt
  have hp : (wordBytes ce.words ++ ce.sha1.toList).length = 60 := by
    simp only [List.length_append, wordBytes_length, CacheEntry.words, List.length_cons,
      List.length_nil, List.Vector.toList_length]
  have he : ce.block ++ t = (wordBytes ce.words ++ ce.sha1.toList) ++
      (toLE 2 ce.namelen.toNat ++ (ce.name.take (ceSize ce - nameOffset) ++ t)) := by
    rw [CacheEntry.block_eq]
    simp only [List.append_assoc]
  rw [namelenAt, he, List.drop_left' hp, List.take_left' (toLE_length _ _), ofLE_toLE,
    Nat.mod_eq_of_lt (by omega), UInt16.ofNat_toNat]

/-- Reading the struct back from the bytes that were written of it. -/
theorem entryOf_block (ce : CacheEntry) (t : List Byte) :
    entryOf (ce.block ++ t) = some ce.trim := by
  have hn := namelenAt_block ce t
  have hl : cacheEntrySize (namelenAt (ce.block ++ t)).toNat ≤ (ce.block ++ t).length := by
    rw [hn, List.length_append, CacheEntry.block_length, ceSize]
    omega
  have he := CacheEntry.block_eq ce
  have hw (i : Nat) (hi : i < 10) : wordAt (ce.block ++ t) (4 * i) = ce.words.get ⟨i, hi⟩ := by
    rw [he, List.append_assoc]
    exact wordAt_words _ _ _ hi
  have hs : ((ce.block ++ t).drop 40).take 20 = ce.sha1.toList := by
    rw [he, List.append_assoc, List.drop_left' (by simp [CacheEntry.words]),
      List.append_assoc, List.take_left' (by simp)]
  have hm : ((ce.block ++ t).drop nameOffset).take (ceSize ce - nameOffset) =
      ce.name.take (ceSize ce - nameOffset) := by
    have hp : (wordBytes ce.words ++ (ce.sha1.toList ++ toLE 2 ce.namelen.toNat)).length =
        nameOffset := by
      simp [CacheEntry.words, nameOffset]
    have hr := ce.room
    have hx : ce.block ++ t = (wordBytes ce.words ++ (ce.sha1.toList ++
        toLE 2 ce.namelen.toNat)) ++ (ce.name.take (ceSize ce - nameOffset) ++ t) := by
      rw [he]
      simp only [List.append_assoc]
    rw [hx, List.drop_left' hp, List.take_left' (by
      simp only [List.length_take, ceSize]
      omega)]
  rw [entryOf, dif_pos hl]
  refine congrArg some (CacheEntry.ext ?_ ?_ (hw 4 (by decide)) (hw 5 (by decide))
    (hw 6 (by decide)) (hw 7 (by decide)) (hw 8 (by decide)) (hw 9 (by decide))
    (Subtype.ext hs) hn ?_)
  · exact congrArg₂ CacheTime.mk (hw 0 (by decide)) (hw 1 (by decide))
  · exact congrArg₂ CacheTime.mk (hw 2 (by decide)) (hw 3 (by decide))
  · simp only [hn]
    exact hm

theorem entryOf_some {m : List Byte} (h : entryOf m = some ce) :
    ce.block = m.take (ceSize ce) ∧ ceSize ce ≤ m.length ∧
      ce.namelen = namelenAt m ∧ ce.name.length = ceSize ce - nameOffset := by
  rw [entryOf] at h
  split at h
  · rename_i hl
    have hmin := cacheEntrySize_min (namelenAt m).toNat
    have hn : toLE 2 (namelenAt m).toNat = (m.drop 60).take 2 := by
      have hl2 : ((m.drop 60).take 2).length = 2 := by
        simp only [List.length_take, List.length_drop]
        omega
      have hlt := ofLE_lt ((m.drop 60).take 2)
      have hr := toLE_ofLE ((m.drop 60).take 2)
      rw [hl2] at hlt hr
      rw [namelenAt, UInt16.toNat_ofNat', Nat.mod_eq_of_lt (by omega), hr]
    have hw := wordBytes_wordAt (k := 10) m (by omega)
    simp only [Option.some.injEq] at h
    subst ce
    refine ⟨?_, hl, rfl, ?_⟩
    · rw [CacheEntry.block_eq]
      simp only [CacheEntry.words, ceSize, List.Vector.toList, hn, List.take_take, min_self]
      rw [show [wordAt m 0, wordAt m 4, wordAt m 8, wordAt m 12, wordAt m 16, wordAt m 20,
        wordAt m 24, wordAt m 28, wordAt m 32, wordAt m 36] =
          (List.range 10).map fun i => wordAt m (4 * i) from rfl, hw]
      have h1 := List.take_add (l := m) (i := 40) (j := 20)
      have h2 := List.take_add (l := m) (i := 60) (j := 2)
      have h3 := List.take_add (l := m) (i := 62)
        (j := cacheEntrySize (namelenAt m).toNat - 62)
      rw [Nat.add_sub_cancel' (by omega)] at h3
      simp only [nameOffset, ← List.append_assoc]
      rw [h3, h2, h1]
    · simp only [ceSize, List.length_take, List.length_drop, nameOffset]
      omega
  · cases h

end SelfGit
