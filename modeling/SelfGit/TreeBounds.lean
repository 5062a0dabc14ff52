import SelfGit.TreeRoundTrip

namespace SelfGit
open Foundation
set_option autoImplicit true

/-- Where one turn of the loop stores: `sprintf` with its NUL, the NUL once more, and the hash. -/
def entryStores (b : TreeBuffer) (ce : CacheEntry) : Option (List Nat) := do
  let n ← strlen ce.name
  let text := numeral 8 ce.stMode.toNat ++ 32 :: ce.name.take n
  some (List.range' b.offset (text.length + 1) ++
    (b.offset + text.length) :: List.range' (b.offset + text.length + 1) 20)

/-- Where the loop of `prepend_integer` stores. -/
def digitStores : Nat → Nat → Int → List Int
  | 0, _, _ => []
  | fuel + 1, val, i => (i - 1) :: if val / 10 = 0 then [] else digitStores fuel (val / 10) (i - 1)

/-- Where the header is stored: a NUL, the digits downwards, and the tag from `i` on. -/
def headerStores (val i : Nat) : List Int :=
  ((origOffset : Int) - 1) :: digitStores (val + 1) val ((origOffset : Int) - 1) ++
    (List.range' i 5).map Int.ofNat

/-- The loop over the first of the entries, from the block of the first guess. -/
def treeAfter (es l : List CacheEntry) : Option TreeBuffer :=
  l.foldlM addTreeEntry ⟨[], es.length * 40 + 400⟩

/-- Every store goes into the block, and the tree is handed over with its length. -/
structure TreeStays (es : List CacheEntry) : Prop where
  entry : ∀ l ce r, es = l ++ ce :: r → ∃ b b' stores, treeAfter es l = some b ∧
    addTreeEntry b ce = some b' ∧ entryStores b ce = some stores ∧ ∀ i ∈ stores, i < b'.size
  header : ∃ b buffer i, treeAfter es es = some b ∧
    prependHeader (str "tree ") (List.replicate origOffset 0 ++ b.payload)
      (b.payload.length % 2 ^ 32) = some (buffer, i) ∧
    ∀ x ∈ headerStores (b.payload.length % 2 ^ 32) i, 0 ≤ x ∧ x < b.size
  handed : handedTree es = .ok (treeBytes es, (treeBytes es).length)

theorem addTreeEntry_stores (h : addTreeEntry b ce = some b') :
    origOffset ≤ b'.size ∧
      ∃ stores, entryStores b ce = some stores ∧ ∀ i ∈ stores, i < b'.size := by
  rw [addTreeEntry, Option.bind_eq_bind, Option.bind_eq_some_iff] at h
  obtain ⟨n, hn, h⟩ := h
  obtain ⟨size, hsize⟩ : ∃ size, size = if b.offset + ce.namelen.toNat + 60 > b.size then
    (b.offset + ce.namelen.toNat + 60 + 16) * 3 % 2 ^ 64 / 2 else b.size := ⟨_, rfl⟩
  simp only [← hsize] at h
  by_cases hroom : b.offset + (numeral 8 ce.stMode.toNat ++ 32 :: ce.name.take n).length + 1 ≤
      size ∧ b.offset + (numeral 8 ce.stMode.toNat ++ 32 :: ce.name.take n).length + 1 + 20 ≤ size
  · rw [if_pos hroom, Option.some.injEq] at h
    subst h
    constructor
    · simp only [TreeBuffer.offset] at hroom
      dsimp only
      omega
    · refine ⟨_, by rw [entryStores, hn]; rfl, ?_⟩
      intro i hi
      simp only [List.mem_append, List.mem_cons, List.mem_range'_1] at hi
      dsimp only
      omega
  · rw [if_neg hroom] at h
    cases h

theorem digitStores_mem (fuel val : Nat) (i : Int) {k : Nat} (hk : 0 < k) (hval : val < 10 ^ k)
    (hx : x ∈ digitStores fuel val i) : i - k ≤ x ∧ x < i := by
  induction fuel generalizing val i k with
  | zero => cases hx
  | succ fuel ih =>
    rw [digitStores, List.mem_cons] at hx
    rcases hx with rfl | hx
    · omega
    · split at hx
      · cases hx
      · rename_i hmore
        obtain ⟨k, rfl⟩ : ∃ j, k = j + 1 := ⟨k - 1, by omega⟩
        have hk' : 0 < k := by
          rcases Nat.eq_zero_or_pos k with rfl | hpos
          · omega
          · exact hpos
        have hin := ih (val / 10) (i - 1) hk' (by rw [Nat.pow_succ] at hval; omega) hx
        omega

theorem headerStores_inside (payload : List Byte) :
    ∃ buffer i, prependHeader (str "tree ") (List.replicate origOffset 0 ++ payload)
      (payload.length % 2 ^ 32) = some (buffer, i) ∧
      ∀ x ∈ headerStores (payload.length % 2 ^ 32) i, 0 ≤ x ∧ x < origOffset := by
  have hlt : payload.length % 2 ^ 32 < 10 ^ 10 := by
    have hmod := Nat.mod_lt payload.length (show 0 < 2 ^ 32 by decide)
    omega
  have hnum : (numeral 10 (payload.length % 2 ^ 32)).length ≤ 10 :=
    numeral_length_le (by decide) (by decide) hlt
  have htag : (str "tree ").length = 5 := by decide
  obtain ⟨pre, hpre, hlen⟩ := prependHeader_eq (str "tree ") (payload.length % 2 ^ 32)
    (List.replicate origOffset 0) payload List.length_replicate (by
      rw [htag, origOffset]
      omega)
  refine ⟨_, _, hpre, ?_⟩
  intro x hx
  rw [htag] at hlen
  rw [headerStores, List.cons_append, List.mem_cons, List.mem_append, List.mem_map] at hx
  simp only [origOffset] at hlen hx ⊢
  rcases hx with rfl | hx | ⟨j, hj, rfl⟩
  · omega
  · have hdigit := digitStores_mem _ _ _ (by decide) hlt hx
    omega
  · rw [List.mem_range'_1] at hj
    have hpos := numeral_length_pos 10 (payload.length % 2 ^ 32)
    rw [Int.ofNat_eq_natCast]
    omega

section Bounds
variable {es : List CacheEntry} (hn : ∀ ce ∈ es, ce.Named) (hsize : es.length * 40 + 400 < 2 ^ 31)
include hn hsize

theorem treeAfter_named (l r : List CacheEntry) (hes : es = l ++ r) :
    ∃ size, treeAfter es l = some ⟨treePayload l, size⟩ := by
  have hlen : l.length ≤ es.length := by
    rw [hes, List.length_append]
    omega
  obtain ⟨size, hfold⟩ := addTreeEntry_all l
    (fun ce hce => hn ce (by rw [hes]; exact List.mem_append_left _ hce))
    ⟨[], es.length * 40 + 400⟩ (by
      simp only [TreeBuffer.offset, origOffset, List.length_nil]
      omega)
  exact ⟨size, hfold⟩

theorem entry_inside (l : List CacheEntry) (ce : CacheEntry) (r : List CacheEntry)
    (hes : es = l ++ ce :: r) :
    ∃ b b' stores, treeAfter es l = some b ∧ addTreeEntry b ce = some b' ∧
      entryStores b ce = some stores ∧ ∀ i ∈ stores, i < b'.size := by
  obtain ⟨size, hl⟩ := treeAfter_named hn hsize l (ce :: r) hes
  obtain ⟨size', hl'⟩ := treeAfter_named hn hsize (l ++ [ce]) r (by simp [hes])
  have hstep : addTreeEntry ⟨treePayload l, size⟩ ce =
      some ⟨treePayload (l ++ [ce]), size'⟩ := by
    rw [treeAfter, List.foldlM_append, ← treeAfter, hl] at hl'
    simpa using hl'
  obtain ⟨-, stores, hstores, hin⟩ := addTreeEntry_stores hstep
  exact ⟨_, _, stores, hl, hstep, hstores, hin⟩

theorem header_inside (hne : es ≠ []) : ∃ b buffer i, treeAfter es es = some b ∧
    prependHeader (str "tree ") (List.replicate origOffset 0 ++ b.payload)
      (b.payload.length % 2 ^ 32) = some (buffer, i) ∧
    ∀ x ∈ headerStores (b.payload.length % 2 ^ 32) i, 0 ≤ x ∧ x < b.size := by
  obtain ⟨l, ce, hes⟩ := (List.eq_nil_or_concat es).resolve_left hne
  rw [List.concat_eq_append] at hes
  obtain ⟨b, b', -, hl, hstep, -⟩ := entry_inside hn hsize l ce [] hes
  have hall : treeAfter es es = some b' := by
    have hsplit : treeAfter es (l ++ [ce]) = some b' := by
      rw [treeAfter, List.foldlM_append, ← treeAfter, hl]
      simpa using hstep
    rwa [← hes] at hsplit
  obtain ⟨buffer, i, hpre, hin⟩ := headerStores_inside b'.payload
  have hroom := (addTreeEntry_stores hstep).1
  refine ⟨b', buffer, i, hall, hpre, ?_⟩
  intro x hx
  have hx' := hin x hx
  omega

end Bounds

theorem treeBytes_length_eq (es : List CacheEntry) : (treeBytes es).length =
    (treePayload es).length + (numeral 10 ((treePayload es).length % 2 ^ 32)).length + 6 := by
  have htag : (str "tree ").length = 5 := by decide
  rw [treeBytes, List.length_append, List.length_append, List.length_cons, htag]
  omega

/-- The stores are inside always. The length is an `unsigned` where it is handed over, so with the
header it has to stay below 2^32. -/
theorem tree_stays_inside {es : List CacheEntry} (hne : es ≠ []) (hn : ∀ ce ∈ es, ce.Named)
    (hsize : es.length * 40 + 400 < 2 ^ 31) (hpay : (treePayload es).length < 2 ^ 32) :
    TreeStays es ↔ (treePayload es).length < 2 ^ 32 - 16 := by
  have hhanded := handedTree_named hn
  rw [if_pos hsize] at hhanded
  have hlen := treeBytes_length_eq es
  rw [Nat.mod_eq_of_lt hpay] at hlen
  have hnum : (numeral 10 (treePayload es).length).length ≤ 10 :=
    numeral_length_le (by decide) (by decide) (by omega)
  constructor
  · intro h
    have heq := h.handed
    rw [hhanded, Except.ok.injEq, Prod.mk.injEq] at heq
    have hlt := Nat.mod_lt (treeBytes es).length (show 0 < 2 ^ 32 by decide)
    by_contra hbig
    -- the number has all its ten digits then
    have hten : 9 < (numeral 10 (treePayload es).length).length :=
      lt_numeral_length (by decide) (by omega)
    omega
  · intro hlt
    refine ⟨entry_inside hn hsize, header_inside hn hsize hne, ?_⟩
    rw [hhanded, Nat.mod_eq_of_lt (by omega)]

theorem tree_stays_inside_two : TreeStays [linked (cstr "a"), linked (cstr "b")] :=
  (tree_stays_inside (by decide) (fun ce he => (linked_ab ce he).1) (by decide)
    (by decide +kernel)).2 (by decide +kernel)

/-- With 65537 entries of 65535 bytes the payload has one byte less than 2^32, and only 15 bytes are
handed over. -/
theorem tree_length_wraps : ¬ ∀ es : List CacheEntry, es ≠ [] → (∀ ce ∈ es, ce.Named) →
    es.length * 40 + 400 < 2 ^ 31 → (treePayload es).length < 2 ^ 32 → TreeStays es := by
  intro hall
  obtain ⟨name, hname⟩ : ∃ name : CStr, name.1.length = 65507 :=
    ⟨⟨List.replicate 65507 97, fun h => absurd (List.eq_of_mem_replicate h) (by decide)⟩,
      List.length_replicate⟩
  have hnl : (linked name).namelen.toNat = 65507 :=
    (newEntry_namelen (Stat.ofSize 1) (by rw [hname]; decide)).trans hname
  have hrecord : (linked name).triple.bytes.length = 65535 := by
    rw [CacheEntry.record_length_eq, hnl, show (linked name).stMode = 0o100644 from rfl]
    decide
  obtain ⟨es, hes⟩ : ∃ es, es = List.replicate 65537 (linked name) := ⟨_, rfl⟩
  have hlen : es.length = 65537 := by rw [hes, List.length_replicate]
  have hpay : (treePayload es).length = 4294967295 := by
    rw [hes, treePayload_replicate, hrecord]
  have hnamed : ∀ ce ∈ es, ce.Named := by
    intro ce he
    rw [hes] at he
    rw [List.eq_of_mem_replicate he]
    exact newEntry_named (by rw [hname]; decide)
  have hsize : es.length * 40 + 400 < 2 ^ 31 := by
    rw [hlen]
    decide
  have hstays := hall es (List.ne_nil_of_length_pos (by rw [hlen]; decide)) hnamed hsize
    (by rw [hpay]; decide)
  have hhanded := hstays.handed
  rw [handedTree_named hnamed, if_pos hsize, Except.ok.injEq, Prod.mk.injEq] at hhanded
  have hlong := treeBytes_length_eq es
  have hlt := Nat.mod_lt (treeBytes es).length (show 0 < 2 ^ 32 by decide)
  rw [hpay] at hlong
  omega

end SelfGit
