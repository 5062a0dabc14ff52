import SelfGit.Reload

namespace SelfGit
open Foundation
set_option autoImplicit true

theorem writePieces_runs (pieces : List (List Byte)) :
    RunsTo Complete fs (writePieces (.repo k) pieces) x fs' ↔
      x = .ok 0 ∧ fs' = fs.append k pieces.flatten := by
  induction pieces generalizing fs with
  | nil => simp only [writePieces, Prog.runs_pure, List.flatten_nil, FS.append_nil]
  | cons b bs ih =>
    simp only [writePieces, runs_write, complete_write]
    constructor
    · rintro ⟨r, fs₁, ⟨rfl, rfl⟩, h⟩
      rw [if_neg (by simp), ih, FS.append_append] at h
      exact h
    · intro h
      refine ⟨_, _, ⟨rfl, rfl⟩, ?_⟩
      rw [if_neg (by simp), ih, FS.append_append]
      exact h

theorem writeCache_runs (hc : c.Holds es) :
    RunsTo Complete fs (writeCache L (.repo k) c) x fs' ↔
      x = .ok 0 ∧ fs' = fs.append k (cacheImage L es) := by
  obtain ⟨rest, hs⟩ := hc.slots
  have hb : blocksOf (toInt c.activeNr).toNat c.activeCache = some (es.map CacheEntry.block) := by
    rw [hc.nr, toInt_of_lt hc.length_lt, Int.toNat_natCast, hs, blocksOf_map]
  simp only [writeCache, hb, runs_defined, Option.some.injEq, reduceCtorEq, false_and, or_false]
  constructor
  · rintro ⟨_, rfl, h⟩
    rw [writePieces_runs, hc.nr] at h
    exact h
  · intro h
    refine ⟨_, rfl, ?_⟩
    rw [writePieces_runs, hc.nr]
    exact h

theorem fillCache_offset (h : fillCache map alloc rounds i offset = some r) : offset ≤ r.2 := by
  induction rounds generalizing i offset r with
  | zero =>
    cases h
    exact Nat.le_refl _
  | succ rounds ih =>
    rw [fillCache] at h
    split at h
    · rw [Option.map_eq_some_iff] at h
      obtain ⟨r', hr', rfl⟩ := h
      have := ih hr'
      simp only
      omega
    · cases h

/-- A walk that ends inside the file has found whole records all the way. -/
theorem fillCache_entries {map : List Byte} {r : List (Option CacheEntry) × Nat}
    (h : fillCache map alloc rounds i offset = some r) (hr : r.2 ≤ map.length) :
    ∃ es : List CacheEntry, r.1 = es.map some ∧ es.length = rounds ∧
      map.take r.2 = map.take offset ++ (es.map CacheEntry.block).flatten ∧
      ∀ e ∈ es, e.trim = e := by
  induction rounds generalizing i offset r with
  | zero =>
    cases h
    exact ⟨[], rfl, rfl, by simp, by simp⟩
  | succ rounds ih =>
    rw [fillCache] at h
    split at h
    · rw [Option.map_eq_some_iff] at h
      obtain ⟨r', hr', rfl⟩ := h
      have hoff := fillCache_offset hr'
      obtain ⟨es, hslots, hlen, htake, htrim⟩ := ih hr' hr
      simp only at hr
      have hroom : cacheEntrySize (namelenAt (map.drop offset)).toNat ≤
          (map.drop offset).length := by
        rw [List.length_drop]
        omega
      obtain ⟨ce, hce⟩ : ∃ ce, entryOf (map.drop offset) = some ce :=
        ⟨_, by rw [entryOf, dif_pos hroom]⟩
      obtain ⟨hblock, -, hn, hname⟩ := entryOf_some hce
      refine ⟨ce :: es, by rw [hce, hslots]; rfl, by rw [List.length_cons, hlen], ?_, ?_⟩
      · rw [htake, List.map_cons, List.flatten_cons, ← List.append_assoc, hblock, ceSize, hn,
          List.take_add]
      · intro e he
        rcases List.mem_cons.1 he with rfl | he
        · ext1 <;> try rfl
          simp only [CacheEntry.trim, ← hname, List.take_length]
        · exact htrim e he
    · cases h

/-- A name of `namelen` bytes other than NUL, padded with zeros to the size of the entry. -/
def Padded (e : CacheEntry) : Prop :=
  0 ∉ e.key ∧ e.name = e.key ++ List.replicate (ceSize e - nameOffset - e.namelen.toNat) 0

theorem Padded.trim (h : Padded e) : e.trim = e := by
  have hb := nameOffset_lt_ceSize e
  have hl : e.name.length = ceSize e - nameOffset := by
    rw [h.2, List.length_append, CacheEntry.key_length, List.length_replicate]
    omega
  ext1 <;> try rfl
  simp only [CacheEntry.trim, ← hl, List.take_length]

/-- A header that `verify_hdr` accepts is the one `write_cache` makes for the body. -/
theorem header_of_verified (hl : headerSize < b.length) (hv : ¬ verifyHdr L b < 0) :
    b.take headerSize = headerWords (wordAt b 8).toNat ++
      (L.sha1 (headerWords (wordAt b 8).toNat ++ b.drop headerSize)).toList := by
  rw [headerSize] at hl
  rw [verifyHdr] at hv
  split at hv
  · omega
  · rename_i hsig
    split at hv
    · omega
    · rename_i hver
      split at hv
      · omega
      · rename_i hsha
        rw [not_not] at hsig hver hsha
        have h0 := toLE_wordAt (k := 0) b (by omega)
        have h4 := toLE_wordAt (k := 4) b (by omega)
        have h8 := toLE_wordAt (k := 8) b (by omega)
        rw [hsig] at h0
        rw [hver] at h4
        have hwords : headerWords (wordAt b 8).toNat = b.take 12 := by
          rw [headerWords, h0, h8, show toLE 4 1 = toLE 4 (1 : UInt32).toNat from rfl, h4,
            List.drop_zero, ← List.take_add, ← List.take_add]
        rw [hwords, hsha, ← List.take_add]
        rfl

/-- Writing back what was loaded from a file that ends with its last record. -/
theorem image_of_load (hl : headerSize < b.length) (h : loadCache L c b = some (n, m))
    (hn : 0 ≤ n)
    (hend : (fillCache b (allocNr (wordAt b 8).toNat) (wordAt b 8).toNat 0 headerSize).map
      Prod.snd = some b.length) : ∃ es, m.Holds es ∧ cacheImage L es = b := by
  rw [Option.map_eq_some_iff] at hend
  obtain ⟨r, hr, hend⟩ := hend
  have hshape := loadCache_shape h hn
  rw [loadCache] at h
  split at h
  · cases h
    omega
  · rename_i hv
    simp only [hr, Option.map_some, Option.some.injEq, Prod.mk.injEq] at h
    obtain ⟨-, rfl⟩ := h
    obtain ⟨es, hslots, hlen, htake, -⟩ := fillCache_entries hr (Nat.le_of_eq hend)
    have hes : (Cache.mk (r.1 ++ List.replicate (allocNr (wordAt b 8).toNat -
        (wordAt b 8).toNat) none) (wordAt b 8).toNat (allocNr (wordAt b 8).toNat)).Holds es :=
      ⟨hlen.symm, hshape.len, hshape.alloc, _, by rw [← hslots]⟩
    refine ⟨es, hes, ?_⟩
    rw [hend, List.take_length] at htake
    have hbody : b.drop headerSize = (es.map CacheEntry.block).flatten := by
      conv_lhs => rw [htake]
      rw [List.drop_left' (by rw [List.length_take]; omega)]
    rw [cacheImage, cacheHeader, hlen, ← hbody, ← header_of_verified hl hv,
      List.take_append_drop]

/-- What `write_cache` has written, `read_cache` loads as the same entries, and what `read_cache`
has loaded of a file that ends with its last record, `write_cache` writes as the same file. -/
theorem index_round_trip (L : Lib) :
    (∀ es m, es ≠ [] → es.length < 2 ^ 30 → (∀ e ∈ es, Padded e) → Cache.Holds m es →
      ∃ b, (∀ fs k x fs', RunsTo Complete fs (writeCache L (.repo k) m) x fs' ↔
          x = .ok 0 ∧ fs' = fs.append k b) ∧
        verifyHdr L b = 0 ∧
        (fillCache b (allocNr es.length) es.length 0 headerSize).map Prod.snd = some b.length ∧
        ∀ fs i, fs.dir indexPath = some i → fs.data i = b → ∃ m', m'.Holds es ∧
          ∀ x fs', RunsTo Granted fs (readCache L Cache.null) x fs' ↔
            fs' = fs ∧ x = .ok ((es.length : Int), m')) ∧
    (∀ fs i n m, fs.dir indexPath = some i → headerSize < (fs.data i).length →
      (wordAt (fs.data i) 8).toNat < 2 ^ 30 →
      RunsTo Granted fs (readCache L Cache.null) (.ok (n, m)) fs → 0 ≤ n →
      (fillCache (fs.data i) (allocNr (wordAt (fs.data i) 8).toNat) (wordAt (fs.data i) 8).toNat 0
        headerSize).map Prod.snd = some (fs.data i).length →
      ∀ fs' k x fs'', RunsTo Complete fs' (writeCache L (.repo k) m) x fs'' ↔
        x = .ok 0 ∧ fs'' = fs'.append k (fs.data i)) := by
  constructor
  · intro es m hne hn hpad hm
    refine ⟨cacheImage L es, fun fs k x fs' => writeCache_runs hm,
      verifyHdr_cacheImage L (by omega), ?_, ?_⟩
    · have hf := fillCache_blocks es (cacheHeader L es.length (es.map CacheEntry.block))
        (show 0 + es.length ≤ allocNr es.length by
          rw [Nat.zero_add]
          exact (le_allocNr_iff (by omega)).2 (by omega))
      rw [cacheHeader_length, ← cacheImage] at hf
      rw [hf, Option.map_some, cacheImage_length]
    · intro fs i hd hb
      have htrim : es.map CacheEntry.trim = es := by
        conv_rhs => rw [← List.map_id es]
        exact List.map_congr_left fun e he => (hpad e he).trim
      have hholds : (reloaded es).Holds (es.map CacheEntry.trim) := reloaded_holds (by omega)
      rw [htrim] at hholds
      refine ⟨reloaded es, hholds, fun x fs' => ?_⟩
      rw [readCache_runs hd (hb ▸ cacheImage_length_lt L (by omega)), hb,
        readBack_image (by omega), if_pos ⟨List.length_pos_of_ne_nil hne, by omega⟩]
  · intro fs i n m hd hl _ hrun hn hend fs' k x fs''
    have hback := (readCache_result hd hrun).2
    rw [readBack, if_pos hl] at hback
    split at hback
    · rename_i r hload
      cases hback
      obtain ⟨es, hes, himg⟩ := image_of_load hl hload hn hend
      rw [writeCache_runs hes, himg]
    · cases hback

theorem index_round_trip_two :
    (∃ b, (∀ fs k x fs', RunsTo Complete fs
        (writeCache storedLib (.repo k) (reloaded [sampleEntry "a" 120, sampleEntry "b" 121])) x
          fs' ↔ x = .ok 0 ∧ fs' = fs.append k b) ∧ verifyHdr storedLib b = 0) ∧
    ∀ fs k x fs', RunsTo Complete fs
      (writeCache storedLib (.repo k) (reloaded [sampleEntry "a" 120, sampleEntry "b" 121])) x
        fs' ↔ x = .ok 0 ∧
          fs' = fs.append k (cacheImage storedLib [sampleEntry "a" 120, sampleEntry "b" 121]) := by
  obtain ⟨es, hes⟩ : ∃ es, es = [sampleEntry "a" 120, sampleEntry "b" 121] := ⟨_, rfl⟩
  have hpad : ∀ e ∈ es, Padded e := by
    rw [hes, List.forall_mem_cons, List.forall_mem_singleton]
    exact ⟨⟨by decide, by decide⟩, by decide, by decide⟩
  have hlen : es.length = 2 := by rw [hes]; rfl
  have hholds : (reloaded es).Holds es := by
    have htrimmed : (reloaded es).Holds (es.map CacheEntry.trim) := reloaded_holds (by omega)
    rwa [List.map_congr_left fun e he => (hpad e he).trim, List.map_id'] at htrimmed
  have hne : es ≠ [] := by
    rw [hes]
    exact List.cons_ne_nil _ _
  obtain ⟨hwrite, hread⟩ := index_round_trip storedLib
  rw [← hes]
  constructor
  · obtain ⟨b, hb, hv, -⟩ := hwrite es _ hne (by omega) hpad hholds
    exact ⟨b, hb, hv⟩
  · let fs : FS := ⟨Function.update FS.empty.dir indexPath (some 0),
      fun _ => cacheImage storedLib es, 1⟩
    have hd : fs.dir indexPath = some 0 := by
      simp only [fs, Function.update_self]
    have hrun := readCache_run (L := storedLib) hd
      (cacheImage_length_lt storedLib (show es.length < 2 ^ 31 by omega))
    rw [show fs.data 0 = cacheImage storedLib es from rfl, readBack_image (by omega),
      if_pos (by omega)] at hrun
    subst hes
    exact hread fs 0 _ _ hd (by decide +kernel) (by decide +kernel) hrun (by decide)
      (by decide +kernel)

end SelfGit
