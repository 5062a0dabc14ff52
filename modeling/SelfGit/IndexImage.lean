import SelfGit.Edits

namespace SelfGit
open Foundation
set_option autoImplicit true

theorem fillCache_length (h : fillCache map alloc rounds i offset = some r) :
    r.1.length = rounds ∧ (i ≤ alloc → i + rounds ≤ alloc) := by
  induction rounds generalizing i offset r with
  | zero =>
    cases h
    exact ⟨rfl, fun hi => hi⟩
  | succ rounds ih =>
    rw [fillCache] at h
    split at h
    · rename_i hb
      rw [Option.map_eq_some_iff] at h
      obtain ⟨r', hr', rfl⟩ := h
      have := ih hr'
      simp only [List.length_cons]
      omega
    · cases h

theorem headerWords_eq (hn : n < 2 ^ 32) :
    headerWords n = wordBytes [UInt32.ofNat cacheSignature, 1, UInt32.ofNat n] := by
  have hs : (UInt32.ofNat cacheSignature).toNat = cacheSignature := by decide
  have h1 : (1 : UInt32).toNat = 1 := rfl
  simp only [headerWords, wordBytes, List.flatMap_cons, List.flatMap_nil, List.append_nil, hs, h1,
    UInt32.toNat_ofNat', Nat.mod_eq_of_lt hn, List.append_assoc]

@[simp] theorem headerWords_length (n : Nat) : (headerWords n).length = 12 := by
  simp [headerWords]

theorem cacheHeader_length (L : Lib) (n : Nat) (bs : List (List Byte)) :
    (cacheHeader L n bs).length = headerSize := by
  simp [cacheHeader, headerSize]

theorem cacheImage_length (L : Lib) (es : List CacheEntry) :
    (cacheImage L es).length = headerSize + (es.map CacheEntry.block).flatten.length := by
  rw [cacheImage, List.length_append, cacheHeader_length]

theorem blocks_length_le (es : List CacheEntry) :
    (es.map CacheEntry.block).flatten.length ≤ 65605 * es.length := by
  induction es with
  | nil => simp
  | cons e es ih =>
    have hb := (cacheEntrySize_bounds e.namelen.toNat).2
    have hn := e.namelen.toNat_lt
    simp only [nameOffset] at hb
    simp only [List.map_cons, List.flatten_cons, List.length_append, CacheEntry.block_length,
      ceSize, List.length_cons]
    omega

theorem cacheImage_length_lt (L : Lib) (hn : es.length < 2 ^ 31) :
    (cacheImage L es).length < 2 ^ 64 := by
  have := blocks_length_le es
  rw [cacheImage_length, headerSize]
  omega

theorem cacheImage_longer (L : Lib) (es : List CacheEntry) :
    headerSize < (cacheImage L es).length ↔ es ≠ [] := by
  rw [cacheImage_length]
  cases es with
  | nil => simp
  | cons e es =>
    have hb := nameOffset_lt_ceSize e
    simp only [List.map_cons, List.flatten_cons, List.length_append, CacheEntry.block_length]
    simp only [ne_eq, reduceCtorEq, not_false_eq_true, iff_true]
    omega

theorem header_word (hn : n < 2 ^ 32) (t : List Byte) :
    wordAt (headerWords n ++ t) 0 = UInt32.ofNat cacheSignature ∧
      wordAt (headerWords n ++ t) 4 = 1 ∧ wordAt (headerWords n ++ t) 8 = UInt32.ofNat n := by
  rw [headerWords_eq hn]
  exact ⟨wordAt_words _ t 0 (by simp), wordAt_words _ t 1 (by simp),
    wordAt_words _ t 2 (by simp)⟩

theorem verifyHdr_cacheImage (L : Lib) (hn : es.length < 2 ^ 32) :
    verifyHdr L (cacheImage L es) = 0 := by
  have he : cacheImage L es = headerWords es.length ++
      ((L.sha1 (headerWords es.length ++ (es.map CacheEntry.block).flatten)).toList ++
        (es.map CacheEntry.block).flatten) := by
    rw [cacheImage, cacheHeader, List.append_assoc]
  obtain ⟨h0, h4, -⟩ := header_word hn
    ((L.sha1 (headerWords es.length ++ (es.map CacheEntry.block).flatten)).toList ++
      (es.map CacheEntry.block).flatten)
  have h12 : (cacheImage L es).take 12 = headerWords es.length := by
    rw [he, List.take_left' (headerWords_length _)]
  have h32 : (cacheImage L es).drop headerSize = (es.map CacheEntry.block).flatten := by
    rw [cacheImage, List.drop_left' (cacheHeader_length _ _ _)]
  have hsha : ((cacheImage L es).drop 12).take 20 =
      (L.sha1 (headerWords es.length ++ (es.map CacheEntry.block).flatten)).toList := by
    rw [he, List.drop_left' (headerWords_length _), List.take_left' (by simp)]
  rw [← he] at h0 h4
  rw [verifyHdr, h0, h4, h12, h32, hsha, if_neg (by decide), if_neg (by decide), if_neg (by simp)]

theorem fillCache_blocks (es : List CacheEntry) (pre : List Byte) (ha : i + es.length ≤ alloc) :
    fillCache (pre ++ (es.map CacheEntry.block).flatten) alloc es.length i pre.length =
      some (es.map fun e => some e.trim,
        pre.length + (es.map CacheEntry.block).flatten.length) := by
  induction es generalizing i pre with
  | nil => simp [fillCache]
  | cons e es ih =>
    have hm : pre ++ ((e :: es).map CacheEntry.block).flatten =
        (pre ++ e.block) ++ (es.map CacheEntry.block).flatten := by
      simp only [List.map_cons, List.flatten_cons, List.append_assoc]
    have hd : (pre ++ ((e :: es).map CacheEntry.block).flatten).drop pre.length =
        e.block ++ (es.map CacheEntry.block).flatten := by
      simp only [List.drop_left, List.map_cons, List.flatten_cons]
    have hb := nameOffset_lt_ceSize e
    have hroom : pre.length + nameOffset ≤
        (pre ++ ((e :: es).map CacheEntry.block).flatten).length := by
      simp only [hm, List.length_append, CacheEntry.block_length]
      omega
    have hnext : pre.length + cacheEntrySize e.namelen.toNat = (pre ++ e.block).length := by
      rw [List.length_append, CacheEntry.block_length, ceSize]
    simp only [List.length_cons] at ha ⊢
    rw [fillCache, if_pos ⟨by omega, hroom⟩]
    simp only [hd, namelenAt_block, entryOf_block, hnext]
    rw [hm, ih (i := i + 1) (pre ++ e.block) (by omega)]
    simp only [Option.map_some, List.map_cons, List.flatten_cons, List.length_append,
      Nat.add_assoc]

theorem cacheImage_entries (L : Lib) (hn : es.length < 2 ^ 32) :
    (wordAt (cacheImage L es) 8).toNat = es.length := by
  rw [cacheImage, cacheHeader, List.append_assoc, (header_word hn _).2.2, UInt32.toNat_ofNat',
    Nat.mod_eq_of_lt hn]

theorem cacheImage_trim (hn : es.length < 2 ^ 32) (hn' : es'.length < 2 ^ 32)
    (h : cacheImage L es = cacheImage L es') :
    es.map CacheEntry.trim = es'.map CacheEntry.trim := by
  have hlen : es.length = es'.length := by
    rw [← cacheImage_entries L hn, ← cacheImage_entries L hn', h]
  have hf := fillCache_blocks es (cacheHeader L es.length (es.map CacheEntry.block))
    (Nat.le_of_eq (Nat.zero_add _))
  have hf' := fillCache_blocks es' (cacheHeader L es'.length (es'.map CacheEntry.block))
    (Nat.le_of_eq (Nat.zero_add _))
  rw [cacheHeader_length, ← cacheImage] at hf hf'
  rw [h, hlen, hf', Option.some.injEq, Prod.mk.injEq] at hf
  have hmap : (es'.map CacheEntry.trim).map some = (es.map CacheEntry.trim).map some := by
    rw [List.map_map, List.map_map]
    exact hf.1
  exact (List.map_injective_iff.2 (Option.some_injective _) hmap).symm

/-- The cache that `read_cache` builds of the image of some entries. -/
def reloaded (es : List CacheEntry) : Cache where
  activeCache := (es.map fun e => some e.trim) ++
    List.replicate (allocNr es.length - es.length) none
  activeNr := es.length
  activeAlloc := allocNr es.length

theorem reloaded_holds (hn : es.length ≤ 1431655749) :
    (reloaded es).Holds (es.map CacheEntry.trim) where
  nr := by simp [reloaded]
  len := by
    have := (le_allocNr_iff (by omega)).2 hn
    simp only [reloaded, List.length_append, List.length_map, List.length_replicate]
    omega
  alloc := allocNr_lt _
  slots := ⟨_, by simp only [reloaded, List.map_map]; rfl⟩

theorem loadCache_cacheImage (L : Lib) (c : Cache) (hn : es.length ≤ 1431655749) :
    loadCache L c (cacheImage L es) = some ((es.length : Int), reloaded es) := by
  have hlt : es.length < 2 ^ 32 := by omega
  have hw := cacheImage_entries L hlt
  have hf := fillCache_blocks es (cacheHeader L es.length (es.map CacheEntry.block))
    (show 0 + es.length ≤ allocNr es.length by
      rw [Nat.zero_add]
      exact (le_allocNr_iff hlt).2 hn)
  rw [cacheHeader_length] at hf
  rw [loadCache, verifyHdr_cacheImage L hlt, if_neg (by decide)]
  simp only [hw]
  rw [cacheImage, hf, Option.map_some, toInt_of_lt (by omega)]
  rfl

/-- An image with too many entries makes the filling loop run past the array. -/
theorem loadCache_overflow (L : Lib) (c : Cache) (hn : 1431655749 < es.length)
    (hlt : es.length < 2 ^ 31) : loadCache L c (cacheImage L es) = none := by
  have hw := cacheImage_entries L (show es.length < 2 ^ 32 by omega)
  rw [loadCache, verifyHdr_cacheImage L (by omega), if_neg (by decide)]
  simp only [hw, Option.map_eq_none_iff]
  cases hf : fillCache (cacheImage L es) (allocNr es.length) es.length 0 headerSize with
  | none => rfl
  | some r =>
    have hb := (fillCache_length hf).2 (Nat.zero_le _)
    have := le_allocNr_iff (show es.length < 2 ^ 32 by omega)
    omega

end SelfGit
