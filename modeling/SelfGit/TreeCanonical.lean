import SelfGit.Ascending
import SelfGit.TreeRoundTrip

namespace SelfGit
open Foundation
set_option autoImplicit true

/-- A cache that a tree can be built of: some entries, named without NUL, and in order. -/
structure TreeIndex (c : Cache) (es : List CacheEntry) : Prop where
  holds : c.Holds es
  ne : es ≠ []
  named : ∀ ce ∈ es, ce.Named
  ascending : Ascending es

/-- All that `write_tree` can hand to `write_sha1_file` of a cache. -/
def handedOver (L : Lib) (c : Cache) (es : List CacheEntry) : Set (Except Stop (List Byte)) :=
  { h | ∃ fs x fs', (∀ ce ∈ es, fs.dir (sha1FileName L ce.sha1) ≠ none) ∧
    RunsTo Smooth fs (buildTree L es.length c) x fs' ∧ h = x.map fun r => r.1.take r.2 }

theorem handedOver_eq (h : TreeIndex c es) :
    handedOver L c es = {(handedTree es).map fun r => r.1.take r.2} := by
  apply Set.ext
  intro b
  rw [Set.mem_singleton_iff]
  constructor
  · rintro ⟨fs, x, fs', hobj, hrun, rfl⟩
    rw [((buildTree_runs smooth_access h.holds hobj).1 hrun).1]
  · rintro rfl
    let fs : FS := ⟨fun _ => some 0, fun _ => [], 1⟩
    have hobj : ∀ ce ∈ es, fs.dir (sha1FileName L ce.sha1) ≠ none := fun _ _ => by simp [fs]
    exact ⟨fs, _, fs, hobj, (buildTree_runs smooth_access h.holds hobj).2 ⟨rfl, rfl⟩, rfl⟩

/-- The first guess at the size does not overflow, and the length fits 32 bits. -/
def TreeSmall (es : List CacheEntry) : Prop :=
  es.length * 40 + 400 < 2 ^ 31 ∧ (treeBytes es).length < 2 ^ 32

theorem TreeSmall.handed (h : TreeSmall es) (hn : ∀ ce ∈ es, ce.Named) :
    ((handedTree es).map fun r => r.1.take r.2) = .ok (treeBytes es) := by
  rw [handedTree_named hn, if_pos h.1, Nat.mod_eq_of_lt h.2]
  simp only [Except.map, List.take_length]

theorem treeBytes_payload (h : treeBytes es = treeBytes es') : treePayload es = treePayload es' := by
  have hsplit : ∀ fs : List CacheEntry, (treeBytes fs).dropWhile (· ≠ 0) = 0 :: treePayload fs := by
    intro fs
    rw [treeBytes, List.dropWhile_append_of_pos]
    · simp
    · intro c hc
      have h0 : c ≠ 0 := by
        rcases List.mem_append.1 hc with hc | hc
        · have hall : ∀ c ∈ str "tree ", c ≠ 0 := by decide +kernel
          exact hall c hc
        · exact digit_ne_zero (numeral_digit (by decide) (by decide) hc)
      simpa using h0
  have hd := congrArg (List.dropWhile (· ≠ 0)) h
  rw [hsplit, hsplit] at hd
  exact (List.cons.inj hd).2

theorem treeBytes_triples (hn : ∀ ce ∈ es, ce.Named) (hn' : ∀ ce ∈ es', ce.Named) :
    treeBytes es = treeBytes es' ↔ es.map CacheEntry.triple = es'.map CacheEntry.triple := by
  have hpay : ∀ fs : List CacheEntry,
      treePayload fs = (fs.map CacheEntry.triple).flatMap TreeRecord.bytes := by
    intro fs
    rw [treePayload, List.flatMap_map]
  constructor
  · intro h
    have hp := treeBytes_payload h
    have h1 := unpackLoop_payload es hn (Nat.lt_succ_of_le (treePayload_length_ge es))
    have h2 := unpackLoop_payload es' hn' (Nat.lt_succ_of_le (treePayload_length_ge es'))
    rw [hp] at h1
    exact (congrArg Prod.fst (h1.symm.trans h2))
  · intro h
    rw [treeBytes, treeBytes, hpay, hpay, h]

theorem triples_of_mem (ha : Ascending es) (ha' : Ascending es') :
    es.map CacheEntry.triple = es'.map CacheEntry.triple ↔
      ∀ r, r ∈ es.map CacheEntry.triple ↔ r ∈ es'.map CacheEntry.triple := by
  constructor
  · intro h r
    rw [h]
  · intro h
    have hsorted : ∀ fs, Ascending fs → (fs.map CacheEntry.triple).Pairwise
        fun a b => a.path < b.path := by
      intro fs hf
      rw [List.pairwise_map]
      exact ascending_iff.1 hf
    have : Std.Irrefl fun a b : TreeRecord => a.path < b.path := ⟨fun a => List.lt_irrefl a.path⟩
    have : Std.Antisymm fun a b : TreeRecord => a.path < b.path :=
      ⟨fun a b hab hba => absurd (List.lt_trans hab hba) (List.lt_irrefl a.path)⟩
    exact (hsorted es ha).eq_of_mem_iff (hsorted es' ha') h

theorem exists_other (s : Sha1) : ∃ s' : Sha1, s' ≠ s := by
  by_cases h : s = List.Vector.replicate 20 0
  · exact ⟨List.Vector.replicate 20 1, by rw [h]; decide⟩
  · exact ⟨List.Vector.replicate 20 0, Ne.symm h⟩

/-- The same cache but for the last hash. -/
theorem exists_twin (h : TreeIndex c es) (hbig : ¬ TreeSmall es) : ∃ c' es', TreeIndex c' es' ∧
    (handedTree es').map (fun r => r.1.take r.2) = (handedTree es).map (fun r => r.1.take r.2) ∧
    ¬ ∀ r, r ∈ es.map CacheEntry.triple ↔ r ∈ es'.map CacheEntry.triple := by
  obtain ⟨init, e, rfl⟩ := (List.eq_nil_or_concat es).resolve_left h.ne
  rw [List.concat_eq_append] at h hbig ⊢
  obtain ⟨s, hs⟩ : ∃ s : Sha1, s ≠ e.sha1 := exists_other e.sha1
  obtain ⟨e', he'⟩ : ∃ e', e' = { e with sha1 := s } := ⟨_, rfl⟩
  have hkey : e'.key = e.key := by rw [he']; rfl
  have htriple : e'.triple = ⟨e.stMode, e.key, s.toList⟩ := by rw [he']; rfl
  have hlen : (init ++ [e']).length = (init ++ [e]).length := by simp
  have hpay : ∀ f : CacheEntry, f.stMode = e.stMode → f.key = e.key →
      treePayload (init ++ [f]) = (treePayload init ++ numeral 8 e.stMode.toNat ++ 32 :: e.key ++
        [0]) ++ f.sha1.toList := by
    intro f hm hk
    simp only [treePayload, List.flatMap_append, List.flatMap_cons, List.flatMap_nil,
      List.append_nil, TreeRecord.bytes, CacheEntry.triple, hm, hk, List.append_assoc,
      List.cons_append, List.nil_append]
  have hp := hpay e rfl rfl
  have hp' := hpay e' (by rw [he']) hkey
  have hsha : ∀ f : CacheEntry, f.sha1.toList.length = 20 := fun f => f.sha1.toList_length
  have hplen : (treePayload (init ++ [e'])).length = (treePayload (init ++ [e])).length := by
    simp only [hp, hp', List.length_append, hsha]
  have hnamed : ∀ ce ∈ init ++ [e'], ce.Named := by
    intro ce hce
    rcases List.mem_append.1 hce with hce | hce
    · exact h.named ce (List.mem_append_left _ hce)
    · rw [List.mem_singleton.1 hce, he']
      exact h.named e (by simp)
  refine ⟨Cache.ofEntries (init ++ [e']), init ++ [e'], ⟨?_, by simp, hnamed, ?_⟩, ?_, ?_⟩
  · apply Cache.ofEntries_holds
    rw [hlen]
    exact h.holds.length_lt
  · have ha := h.ascending
    rw [ascending_iff, List.pairwise_append] at ha ⊢
    refine ⟨ha.1, List.pairwise_singleton _ _, ?_⟩
    intro a ha' b hb
    rw [List.mem_singleton.1 hb, hkey]
    exact ha.2.2 a ha' e (by simp)
  · rw [handedTree_named hnamed, handedTree_named h.named, hlen]
    split
    · rename_i hint
      have hlong : 2 ^ 32 ≤ (treeBytes (init ++ [e])).length := by
        by_contra hlt
        exact hbig ⟨hint, by omega⟩
      obtain ⟨pre, hpre⟩ : ∃ pre, pre = str "tree " ++ numeral 10
          ((treePayload (init ++ [e])).length % 2 ^ 32) ++ 0 :: (treePayload init ++
            numeral 8 e.stMode.toNat ++ 32 :: e.key ++ [0]) := ⟨_, rfl⟩
      have hb : treeBytes (init ++ [e]) = pre ++ e.sha1.toList := by
        rw [treeBytes, hpre, hp]
        simp only [List.append_assoc, List.cons_append]
      have hb' : treeBytes (init ++ [e']) = pre ++ e'.sha1.toList := by
        rw [treeBytes, hplen, hpre, hp']
        simp only [List.append_assoc, List.cons_append]
      have hl : (treeBytes (init ++ [e'])).length = (treeBytes (init ++ [e])).length := by
        rw [hb, hb', List.length_append, List.length_append, hsha, hsha]
      have hroom : (treeBytes (init ++ [e])).length % 2 ^ 32 ≤ pre.length := by
        have hl' := congrArg List.length hb
        rw [List.length_append, hsha] at hl'
        omega
      simp only [Except.map]
      rw [hl, hb', hb, List.take_append_of_le_length (hb ▸ hroom),
        List.take_append_of_le_length (hb ▸ hroom)]
    · rfl
  · intro hsame
    have hmem := (hsame e.triple).1 (List.mem_map_of_mem (by simp))
    rw [List.mem_map] at hmem
    obtain ⟨f, hf, hfe⟩ := hmem
    have hfk : f.key = e.key := congrArg TreeRecord.path hfe
    rcases List.mem_append.1 hf with hf | hf
    · have ha := h.ascending
      rw [ascending_iff, List.pairwise_append] at ha
      have hlt := ha.2.2 f hf e (by simp)
      rw [hfk] at hlt
      exact List.lt_irrefl _ hlt
    · rw [List.mem_singleton.1 hf, htriple] at hfe
      exact hs (Subtype.ext (congrArg TreeRecord.sha1 hfe))

/-- For caches whose trees stay below the limits, the buffers are equal if and only if the same
triples are in the caches; and every cache beyond the limits shares its buffer with another. -/
theorem tree_canonical (L : Lib) :
    (∀ c es c' es', TreeIndex c es → TreeIndex c' es' → TreeSmall es → TreeSmall es' →
      (handedOver L c es = handedOver L c' es' ↔
        ∀ r, r ∈ es.map CacheEntry.triple ↔ r ∈ es'.map CacheEntry.triple)) ∧
    ∀ c es, TreeIndex c es → ¬ TreeSmall es → ∃ c' es', TreeIndex c' es' ∧
      handedOver L c es = handedOver L c' es' ∧
      ¬ ∀ r, r ∈ es.map CacheEntry.triple ↔ r ∈ es'.map CacheEntry.triple := by
  constructor
  · intro c es c' es' h h' hs hs'
    rw [handedOver_eq h, handedOver_eq h', hs.handed h.named, hs'.handed h'.named,
      Set.singleton_eq_singleton_iff, Except.ok.injEq, treeBytes_triples h.named h'.named,
      triples_of_mem h.ascending h'.ascending]
  · intro c es h hbig
    obtain ⟨c', es', h', hsame, hdiff⟩ := exists_twin h hbig
    exact ⟨c', es', h', by rw [handedOver_eq h, handedOver_eq h', hsame], hdiff⟩

theorem linked_key (hp : p.1.length < 2 ^ 16) : (linked p).key = p.1 := by
  have hn := newEntry_namelen (Stat.ofSize 1) hp
  simp only [CacheEntry.key, linked, hn]
  exact List.take_left' rfl

theorem TreeIndex.single (hp : p.1.length < 2 ^ 16) (t : CacheTime) :
    TreeIndex (Cache.ofEntries [{ linked p with mtime := t }]) [{ linked p with mtime := t }] where
  holds := Cache.ofEntries_holds (by rw [List.length_singleton]; decide)
  ne := by simp
  named ce hce := by
    have hlinked : (linked p).Named := newEntry_named hp
    rw [List.mem_singleton.1 hce]
    exact hlinked
  ascending := List.pairwise_singleton _ _

/-- Times do not enter the tree. -/
theorem tree_canonical_times :
    handedOver storedLib (Cache.ofEntries [{ linked (cstr "a") with mtime := ⟨1, 2⟩ }])
        [{ linked (cstr "a") with mtime := ⟨1, 2⟩ }] =
      handedOver storedLib (Cache.ofEntries [{ linked (cstr "a") with mtime := ⟨3, 4⟩ }])
        [{ linked (cstr "a") with mtime := ⟨3, 4⟩ }] := by
  refine ((tree_canonical storedLib).1 _ _ _ _ (TreeIndex.single (by decide) _)
    (TreeIndex.single (by decide) _) ?_ ?_).2 fun r => Iff.rfl
  · exact ⟨by decide, by decide +kernel⟩
  · exact ⟨by decide, by decide +kernel⟩

/-- Names of one letter repeated, of all lengths up to `n`. -/
def ladder (b : Byte) (hb : 0 ≠ b) (n : Nat) : List CacheEntry :=
  (List.range n).map fun k => linked ⟨List.replicate (k + 1) b, fun h =>
    hb (List.eq_of_mem_replicate h)⟩

theorem replicate_lt (b : Byte) (h : i < j) : List.replicate i b < List.replicate j b := by
  induction i generalizing j with
  | zero =>
    cases j with
    | zero => omega
    | succ j => exact List.nil_lt_cons _ _
  | succ i ih =>
    cases j with
    | zero => omega
    | succ j =>
      rw [List.replicate_succ, List.replicate_succ, List.cons_lt_cons_iff]
      exact .inr ⟨rfl, ih (by omega)⟩

theorem ladder_mem (hn : n < 2 ^ 16) (he : e ∈ ladder b hb n) :
    e.Named ∧ ∃ k < n, e.key = List.replicate (k + 1) b := by
  simp only [ladder, List.mem_map, List.mem_range] at he
  obtain ⟨k, hk, rfl⟩ := he
  have hl : (List.replicate (k + 1) b).length < 2 ^ 16 := by
    rw [List.length_replicate]
    omega
  exact ⟨newEntry_named hl, k, hk, linked_key hl⟩

theorem ladder_ascending (hb : 0 ≠ b) (hn : n < 2 ^ 16) : Ascending (ladder b hb n) := by
  rw [ascending_iff, ladder, List.pairwise_map]
  apply List.Pairwise.imp_of_mem _ List.pairwise_lt_range
  intro i j hi hj hij
  rw [List.mem_range] at hi hj
  rw [linked_key (by simp only [List.length_replicate]; omega),
    linked_key (by simp only [List.length_replicate]; omega)]
  exact replicate_lt b (by omega)

theorem ladder_payload (hb : 0 ≠ b) (hn : n < 2 ^ 16) :
    n * (n + 1) + 46 * n ≤ 2 * (treePayload (ladder b hb n)).length := by
  induction n with
  | zero => exact Nat.zero_le _
  | succ n ih =>
    obtain ⟨p, hp⟩ : ∃ p : CStr, p = ⟨List.replicate (n + 1) b, fun h =>
      hb (List.eq_of_mem_replicate h)⟩ := ⟨_, rfl⟩
    have hl : p.1.length = n + 1 := by rw [hp, List.length_replicate]
    have hnl : (linked p).namelen.toNat = n + 1 :=
      (newEntry_namelen (Stat.ofSize 1) (by rw [hl]; omega)).trans hl
    have hpos := numeral_length_pos 8 (linked p).stMode.toNat
    have hrec := (linked p).record_length_eq
    have hstep : (treePayload (ladder b hb (n + 1))).length =
        (treePayload (ladder b hb n)).length + (linked p).triple.bytes.length := by
      simp only [ladder, List.range_succ, List.map_append, List.map_cons, List.map_nil,
        treePayload, List.flatMap_append, List.flatMap_cons, List.flatMap_nil, List.append_nil,
        List.length_append, hp]
    have hsq : (n + 1) * (n + 1 + 1) = n * (n + 1) + 2 * (n + 1) := by ring
    have := ih (by omega)
    rw [hstep, hsq]
    omega

/-- The names of up to 65535 letters `a` and of as many letters `b` make a tree of more than
`2 ^ 32` bytes, and another cache has the same buffer handed over. -/
theorem tree_confused : ¬ ∀ c es c' es', TreeIndex c es → TreeIndex c' es' →
    (handedOver storedLib c es = handedOver storedLib c' es' ↔
      ∀ r, r ∈ es.map CacheEntry.triple ↔ r ∈ es'.map CacheEntry.triple) := by
  intro hall
  have ha : (0 : Byte) ≠ 97 := by decide
  have hb : (0 : Byte) ≠ 98 := by decide
  have hl : (ladder 97 ha 65535 ++ ladder 98 hb 65535).length = 131070 := by
    simp only [ladder, List.length_append, List.length_map, List.length_range]
  have hindex : TreeIndex (Cache.ofEntries (ladder 97 ha 65535 ++ ladder 98 hb 65535))
      (ladder 97 ha 65535 ++ ladder 98 hb 65535) := by
    refine ⟨Cache.ofEntries_holds (by rw [hl]; decide),
      List.ne_nil_of_length_pos (by rw [hl]; decide), ?_, ?_⟩
    · intro ce hce
      rcases List.mem_append.1 hce with hce | hce
      · exact (ladder_mem (by decide) hce).1
      · exact (ladder_mem (by decide) hce).1
    · rw [ascending_iff, List.pairwise_append]
      refine ⟨ascending_iff.1 (ladder_ascending ha (by decide)),
        ascending_iff.1 (ladder_ascending hb (by decide)), ?_⟩
      intro x hx y hy
      obtain ⟨-, i, -, hi⟩ := ladder_mem (by decide) hx
      obtain ⟨-, j, -, hj⟩ := ladder_mem (by decide) hy
      rw [hi, hj, List.replicate_succ, List.replicate_succ, List.cons_lt_cons_iff]
      exact .inl (by decide)
  have hbig : ¬ TreeSmall (ladder 97 ha 65535 ++ ladder 98 hb 65535) := by
    intro hs
    have h1 := ladder_payload ha (show 65535 < 2 ^ 16 by decide)
    have h2 := ladder_payload hb (show 65535 < 2 ^ 16 by decide)
    have hlen := hs.2
    have hpay : (treePayload (ladder 97 ha 65535 ++ ladder 98 hb 65535)).length =
        (treePayload (ladder 97 ha 65535)).length + (treePayload (ladder 98 hb 65535)).length := by
      rw [treePayload, List.flatMap_append, List.length_append]
      rfl
    rw [treeBytes, List.length_append, List.length_cons, hpay] at hlen
    omega
  obtain ⟨c', es', h', hsame, hdiff⟩ := exists_twin hindex hbig
  apply hdiff
  apply (hall _ _ _ _ hindex h').1
  rw [handedOver_eq hindex, handedOver_eq h', hsame]

end SelfGit
