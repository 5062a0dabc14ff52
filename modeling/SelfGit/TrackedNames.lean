import SelfGit.Remove
import SelfGit.Sessions
import SelfGit.ShellCommand

namespace SelfGit
open Foundation
set_option autoImplicit true

def CacheEntry.Tame (e : CacheEntry) : Prop :=
  ∀ n, strlen e.name = some n → SingleCommand (e.name.take n)

/-- All names that `read_cache` makes of an index are plain to the shell. -/
def PlainNames (s : Option (List Byte)) : Prop :=
  ∀ L c, loaded L s = some c → ∀ e ∈ c.entries, e.Tame

/-- A shell may do to the repository what it likes, but a single `diff` of a file leaves it alone. -/
def Harmless (shell : List Byte → FS → FS → Prop) : Prop :=
  ∀ path fs fs', SingleCommand path → shell (diffCommand path) fs fs' → fs' = fs

theorem CacheEntry.Tame.trim (h : CacheEntry.Tame e) : e.trim.Tame := by
  intro n hn
  obtain ⟨t, ht, h0, hlt⟩ := strlen_spec hn
  have hname : e.trim.name = e.name.take (ceSize e - nameOffset) := rfl
  rw [hname, List.length_take] at hlt
  have htake : e.trim.name.take n = e.name.take n := by
    rw [hname, List.take_take, Nat.min_eq_left (by omega)]
  rw [htake] at ht h0 ⊢
  refine h n ?_
  rw [← List.take_append_drop (ceSize e - nameOffset) e.name, ← hname, ht, List.append_assoc,
    List.cons_append, strlen_append _ _ h0, List.length_take, Nat.min_eq_left (by omega)]

theorem newEntry_tame (hp : path.1.length < pathMax) (h : SingleCommand path.1) (st : Stat)
    (s : Sha1) : CacheEntry.Tame { newEntry path st with sha1 := s } := by
  intro n hn
  have hfits := fits_of_lt_pathMax hp
  have hnamed : strlen (newEntry path st).name = some (newEntry path st).namelen.toNat :=
    newEntry_named hfits
  obtain rfl := Option.some.inj (hn.symm.trans hnamed)
  change SingleCommand (newEntry path st).key
  rwa [newEntry_key hfits]

theorem memmove_mem {xs ys : List α} (h : memmove xs dst src n = some ys) (hy : y ∈ ys) :
    y ∈ xs := by
  obtain ⟨-, -, rfl⟩ := memmove_some h
  rcases List.mem_append.1 hy with hy | hy
  · rcases List.mem_append.1 hy with hy | hy
    · exact List.mem_of_mem_take hy
    · exact List.mem_of_mem_drop (List.mem_of_mem_take hy)
  · exact List.mem_of_mem_drop hy

theorem store_mem {xs ys : List α} (h : store xs i a = some ys) (hy : y ∈ ys) :
    y = a ∨ y ∈ xs := by
  obtain ⟨-, rfl⟩ := store_some h
  exact (List.mem_or_eq_of_mem_set hy).symm

theorem addCacheEntry_mem (h : addCacheEntry c ce = some c') (he : some e ∈ c'.activeCache) :
    e = ce ∨ some e ∈ c.activeCache := by
  have hinsert : ∀ {d : Cache} {k : Nat}, d.insertAt k ce = some c' →
      e = ce ∨ some e ∈ d.activeCache := by
    intro d k h
    simp only [Cache.insertAt, Option.bind_eq_bind, Option.bind_eq_some_iff] at h
    obtain ⟨xs, hxs, ys, hys, h⟩ := h
    cases h
    rcases store_mem hys he with heq | hmem
    · exact .inl (Option.some.inj heq)
    · refine .inr ?_
      split at hxs
      · exact memmove_mem hxs hmem
      · cases hxs
        exact hmem
  rw [addCacheEntry, Option.bind_eq_bind, Option.bind_eq_some_iff] at h
  obtain ⟨pos, -, h⟩ := h
  split at h
  · rw [Option.bind_eq_bind, Option.bind_eq_some_iff] at h
    obtain ⟨xs, hxs, h⟩ := h
    cases h
    exact (store_mem hxs he).imp_left Option.some.inj
  · refine (hinsert h).imp_right fun hmem => ?_
    split at hmem
    · rcases List.mem_append.1 hmem with hmem | hmem
      · exact List.mem_of_mem_take hmem
      · exact absurd (List.eq_of_mem_replicate hmem) (by simp)
    · exact hmem

theorem removeFileFromCache_mem (h : removeFileFromCache c path = some c')
    (he : some e ∈ c'.activeCache) : some e ∈ c.activeCache := by
  rw [removeFileFromCache, Option.bind_eq_bind, Option.bind_eq_some_iff] at h
  obtain ⟨pos, -, h⟩ := h
  split at h
  · simp only at h
    split at h
    · rw [Option.bind_eq_bind, Option.bind_eq_some_iff] at h
      obtain ⟨xs, hxs, h⟩ := h
      cases h
      exact memmove_mem hxs he
    · cases h
      exact he
  · cases h
    exact he

theorem Edits.tame (h : Edits L ok objects c ps c')
    (hps : ∀ p ∈ ps, verifyPath p = true → SingleCommand p.1)
    (hc : ∀ e, some e ∈ c.activeCache → e.Tame) : ∀ e, some e ∈ c'.activeCache → e.Tame := by
  induction h with
  | done => exact hc
  | skipped _ _ ih => exact ih (List.forall_mem_cons.1 hps).2 hc
  | added hv hp _ _ ha _ ih =>
    rw [List.forall_mem_cons] at hps
    refine ih hps.2 fun e he => ?_
    rcases addCacheEntry_mem ha he with rfl | he
    · exact newEntry_tame hp (hps.1 hv) _ _
    · exact hc e he
  | removed _ _ hr _ _ ih =>
    exact ih (List.forall_mem_cons.1 hps).2 fun e he => hc e (removeFileFromCache_mem hr he)

theorem loaded_mem (h : loaded L s = some c) (he : some e ∈ c.activeCache) : e ∈ c.entries := by
  cases s with
  | none =>
    cases h
    cases he
  | some b =>
    rw [loaded] at h
    split at h
    · rw [Option.bind_eq_some_iff] at h
      obtain ⟨r, hr, h⟩ := h
      split at h
      · cases h
      · rename_i hr0
        cases h
        rw [loadCache] at hr
        split at hr
        · cases hr
          exact absurd (by decide) hr0
        · rw [Option.map_eq_some_iff] at hr
          obtain ⟨r', hfill, rfl⟩ := hr
          have hlen := (fillCache_length hfill).1
          rw [Cache.entries, List.reduceOption_mem_iff]
          rcases List.mem_append.1 he with he | he
          · rwa [List.take_left' hlen]
          · cases List.eq_of_mem_replicate he
    · cases h

/-- What an index is taken for does not depend on the library that accepts it. -/
theorem loaded_lib (h : loaded L' (some b) = some c) (hv : ¬ verifyHdr L b < 0) :
    loaded L (some b) = some c := by
  rw [loaded] at h ⊢
  split at h
  · rename_i hlen
    rw [Option.bind_eq_some_iff] at h
    obtain ⟨r, hr, h⟩ := h
    rw [if_pos hlen, Option.bind_eq_some_iff]
    refine ⟨r, ?_, h⟩
    rw [loadCache] at hr ⊢
    rw [if_neg hv]
    split at hr
    · cases hr
      rw [if_pos (by decide)] at h
      cases h
    · exact hr
  · cases h

theorem plainNames_image (hn : es.length < 2 ^ 31) (h : ∀ e ∈ es, e.Tame) :
    PlainNames (some (cacheImage L es)) := by
  intro L' c hc e he
  have hhdr : ¬ verifyHdr L (cacheImage L es) < 0 := by
    rw [verifyHdr_cacheImage L (by omega)]
    decide
  rw [(loaded_image hn (loaded_lib hc hhdr)).entries_eq] at he
  obtain ⟨f, hf, rfl⟩ := List.mem_map.1 he
  exact (h f hf).trim

theorem plainNames_none : PlainNames none := by
  intro L c hc e he
  cases hc
  cases he

theorem PlainNames.next (h : PlainNames s) (hl : loaded L s = some c)
    (he : Edits L ok objects c ps c')
    (hps : ∀ p ∈ ps, verifyPath p = true → SingleCommand p.1) (hi : c'.image L = some b) :
    PlainNames (some b) := by
  have htame := he.tame hps fun e hmem => h L c hl e (loaded_mem hl hmem)
  obtain ⟨es, hes, rfl⟩ := (he.shape (loaded_shape hl)).holds_of_image hi
  refine plainNames_image hes.length_lt fun e hmem => htame e ?_
  obtain ⟨rest, hslots⟩ := hes.slots
  rw [hslots]
  exact List.mem_append_left _ (List.mem_map_of_mem hmem)

end SelfGit
