import SelfGit.Foundation.Slots
import SelfGit.Layout

namespace SelfGit
open Foundation
set_option autoImplicit true

/-- `active_cache`, `active_nr` and `active_alloc`. The null array has no slots. -/
structure Cache where
  activeCache : List (Option CacheEntry)
  activeNr : Nat
  activeAlloc : Nat
  deriving DecidableEq

def Cache.null : Cache := ⟨[], 0, 0⟩

/-- Conversion of an integer value to `int`. -/
def toInt (n : Int) : Int := Int.bmod n (2 ^ 32)

/-- `alloc_nr`, in the unsigned arithmetic of its argument. -/
def allocNr (x : Nat) : Nat := (x + 16) * 3 % 2 ^ 32 / 2

def cacheNameCompare (name1 : List Byte) (len1 : Nat) (name2 : List Byte) (len2 : Nat) : Int :=
  let len := if len1 < len2 then len1 else len2
  let cmp := memcmp len name1 name2
  if cmp ≠ 0 then cmp
  else if len1 < len2 then -1
  else if len1 > len2 then 1
  else 0

/-- The search loop. The sum of the bounds is signed, so exceeding `INT_MAX` is undefined. -/
def cacheNamePosLoop (slots : List (Option CacheEntry)) (name : List Byte) (namelen : Nat) :
    Nat → Nat → Nat → Option Int
  | 0, first, _ => some first
  | fuel + 1, first, last =>
    if last > first then
      if last + first < 2 ^ 31 then
        let next := (last + first) / 2
        match slots[next]? with
        | some (some ce) =>
          let cmp := cacheNameCompare name namelen ce.name ce.namelen.toNat
          if cmp = 0 then some (-next - 1)
          else if cmp < 0 then cacheNamePosLoop slots name namelen fuel first next
          else cacheNamePosLoop slots name namelen fuel (next + 1) last
        | _ => none
      else none
    else some first

def cacheNamePos (c : Cache) (name : List Byte) (namelen : Nat) : Option Int :=
  let last := (toInt c.activeNr).toNat
  cacheNamePosLoop c.activeCache name namelen last 0 last

/-- The effect of `remove_file_from_cache`, which ends without a return statement. -/
def removeFileFromCache (c : Cache) (path : Path) : Option Cache := do
  let pos ← cacheNamePos c path path.length
  if pos < 0 then
    let pos := (-pos - 1).toNat
    let activeNr := (c.activeNr + 2 ^ 32 - 1) % 2 ^ 32
    if pos < activeNr then
      let slots ← memmove c.activeCache pos (pos + 1) (activeNr - pos - 1)
      some { c with activeCache := slots, activeNr := activeNr }
    else
      some { c with activeNr := activeNr }
  else
    some c

/-- `realloc` to `alloc_nr(active_alloc)` slots. New slots are indeterminate. -/
def Cache.grow (c : Cache) : Cache :=
  let alloc := allocNr c.activeAlloc
  { c with
    activeCache := c.activeCache.take alloc ++
      List.replicate (alloc - c.activeCache.length) none
    activeAlloc := alloc }

/-- Shift the entries from `pos` on up by one slot and store the new one. -/
def Cache.insertAt (c : Cache) (pos : Nat) (ce : CacheEntry) : Option Cache := do
  let activeNr := (c.activeNr + 1) % 2 ^ 32
  let slots ← (if activeNr > pos then
    memmove c.activeCache (pos + 1) pos (activeNr - pos - 1) else some c.activeCache)
  let slots ← store slots pos (some ce)
  some { c with activeCache := slots, activeNr := activeNr }

def addCacheEntry (c : Cache) (ce : CacheEntry) : Option Cache := do
  let pos ← cacheNamePos c ce.name ce.namelen.toNat
  if pos < 0 then
    let slots ← store c.activeCache (-pos - 1).toNat (some ce)
    some { c with activeCache := slots }
  else
    (if c.activeNr = c.activeAlloc then c.grow else c).insertAt pos.toNat ce

/-- The array starts with the given entries, which are all that count. -/
structure Cache.Holds (c : Cache) (es : List CacheEntry) : Prop where
  nr : c.activeNr = es.length
  len : c.activeCache.length = c.activeAlloc
  alloc : c.activeAlloc < 2 ^ 31
  slots : ∃ rest, c.activeCache = es.map some ++ rest

theorem Cache.null_holds : Cache.null.Holds [] := ⟨rfl, rfl, by decide, [], rfl⟩

theorem Cache.Holds.length_le (h : Cache.Holds c es) : es.length ≤ c.activeAlloc := by
  obtain ⟨rest, hr⟩ := h.slots
  have hl := h.len
  rw [hr, List.length_append, List.length_map] at hl
  omega

theorem Cache.Holds.length_lt (h : Cache.Holds c es) : es.length < 2 ^ 31 :=
  Nat.lt_of_le_of_lt h.length_le h.alloc

theorem Cache.Holds.slot (h : Cache.Holds c es) (hi : i < es.length) :
    c.activeCache[i]? = some (some es[i]) := by
  obtain ⟨rest, hr⟩ := h.slots
  rw [hr, List.getElem?_append_left (by simpa using hi), List.getElem?_map,
    List.getElem?_eq_getElem hi]
  rfl

theorem Cache.Holds.unique (h : Cache.Holds c es) (h' : Cache.Holds c fs) : es = fs := by
  have hl : es.length = fs.length := h.nr.symm.trans h'.nr
  apply List.ext_getElem hl
  intro i hi hi'
  have he := (h.slot hi).symm.trans (h'.slot hi')
  simpa using he

def Cache.ofEntries (es : List CacheEntry) : Cache := ⟨es.map some, es.length, es.length⟩

theorem Cache.ofEntries_holds (h : es.length < 2 ^ 31) : (Cache.ofEntries es).Holds es :=
  ⟨rfl, List.length_map _, h, [], (List.append_nil _).symm⟩

theorem toInt_of_lt (h : n < 2 ^ 31) : toInt (n : Nat) = n := by
  simp only [toInt, Int.bmod_def]
  omega

theorem allocNr_lt (x : Nat) : allocNr x < 2 ^ 31 := by
  simp only [allocNr]
  omega

theorem allocNr_eq (hx : x < 1431655750) : allocNr x = (x + 16) * 3 / 2 := by
  simp only [allocNr]
  omega

theorem le_allocNr_iff (hn : n < 2 ^ 32) : n ≤ allocNr n ↔ n ≤ 1431655749 := by
  simp only [allocNr]
  have hdiv := Nat.div_add_mod ((n + 16) * 3) (2 ^ 32)
  have hmod := Nat.mod_lt ((n + 16) * 3) (show 2 ^ 32 > 0 by decide)
  generalize (n + 16) * 3 % 2 ^ 32 = r at hdiv hmod ⊢
  generalize (n + 16) * 3 / 2 ^ 32 = q at hdiv
  obtain rfl | rfl | rfl | rfl : q = 0 ∨ q = 1 ∨ q = 2 ∨ q = 3 := by omega
  all_goals omega

/-- The comparison of length-delimited names is the lexicographic one. -/
theorem cacheNameCompare_lt {name1 name2 : List Byte} (h1 : len1 ≤ name1.length)
    (h2 : len2 ≤ name2.length) :
    cacheNameCompare name1 len1 name2 len2 < 0 ↔ name1.take len1 < name2.take len2 := by
  have hm : (if len1 < len2 then len1 else len2) = min len1 len2 := by
    rw [Nat.min_def]
    split <;> split <;> omega
  have hz := memcmp_eq_zero (Nat.le_trans (Nat.min_le_left len1 len2) h1)
    (Nat.le_trans (Nat.min_le_right len1 len2) h2)
  have hl := memcmp_lt_zero (Nat.le_trans (Nat.min_le_left len1 len2) h1)
    (Nat.le_trans (Nat.min_le_right len1 len2) h2)
  have ht := lt_iff_take_lt (name1.take len1) (name2.take len2) rfl
  simp only [List.length_take, Nat.min_eq_left h1, Nat.min_eq_left h2, List.take_take] at ht
  rw [Nat.min_eq_left (Nat.min_le_left len1 len2), Nat.min_eq_left (Nat.min_le_right len1 len2)]
    at ht
  rw [ht, ← hl, ← hz]
  simp only [cacheNameCompare, hm]
  split
  · rename_i h0
    simp only [h0, false_and, or_false]
  · rename_i h0
    rw [not_not] at h0
    simp only [h0, lt_self_iff_false, false_or, true_and]
    split
    · simp [*]
    · split <;> simp [*]

theorem cacheNameCompare_eq {name1 name2 : List Byte} (h1 : len1 ≤ name1.length)
    (h2 : len2 ≤ name2.length) :
    cacheNameCompare name1 len1 name2 len2 = 0 ↔ name1.take len1 = name2.take len2 := by
  have hm : (if len1 < len2 then len1 else len2) = min len1 len2 := by
    rw [Nat.min_def]
    split <;> split <;> omega
  have hz := memcmp_eq_zero (Nat.le_trans (Nat.min_le_left len1 len2) h1)
    (Nat.le_trans (Nat.min_le_right len1 len2) h2)
  simp only [cacheNameCompare, hm]
  constructor
  · intro h
    split at h
    · contradiction
    · rename_i h0
      rw [not_not] at h0
      have hlen : len1 = len2 := by
        split at h
        · cases h
        · split at h
          · cases h
          · omega
      subst len2
      simpa using hz.1 h0
  · intro h
    have hlen := congrArg List.length h
    simp only [List.length_take, Nat.min_eq_left h1, Nat.min_eq_left h2] at hlen
    subst len2
    rw [Nat.min_self] at hz ⊢
    simp [hz.2 h]

end SelfGit
