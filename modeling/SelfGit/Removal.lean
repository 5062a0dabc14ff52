import SelfGit.Adding
import SelfGit.Erasing
import SelfGit.Remove

namespace SelfGit
open Foundation
set_option autoImplicit true

/-- Halve an interval towards a place: do all the sums of the bounds fit an `int`? -/
def midpointsFit (place : Nat) (hit : Bool) : Nat → Nat → Nat → Bool
  | 0, _, _ => true
  | fuel + 1, first, last =>
    if last > first then
      if last + first < 2 ^ 31 then
        let next := (last + first) / 2
        if next = place ∧ hit then true
        else if place ≤ next then midpointsFit place hit fuel first next
        else midpointsFit place hit fuel (next + 1) last
      else false
    else true

/-- How many names are smaller. -/
def placeOf (es : List CacheEntry) (name : List Byte) : Nat := es.countP fun e => e.key < name

/-- The sums in a binary search for the name stay in an `int`. -/
def SearchFits (es : List CacheEntry) (name : List Byte) : Prop :=
  midpointsFit (placeOf es name) (lookup es name).isSome es.length 0 es.length = true

theorem Ascending.lt_place (ha : Ascending es) (hi : i < es.length) (name : List Byte) :
    es[i].key < name ↔ i < placeOf es name := by
  rw [ascending_iff] at ha
  induction es generalizing i with
  | nil => simp at hi
  | cons e es ih =>
    rw [List.pairwise_cons] at ha
    rw [placeOf, List.countP_cons]
    by_cases he : e.key < name
    · simp only [he, decide_true, ↓reduceIte]
      cases i with
      | zero => simp [he]
      | succ i =>
        have hrest := ih (i := i) ha.2 (by simpa using hi)
        rw [placeOf] at hrest
        simpa using hrest
    · -- then no later name is smaller either
      have hlater : ∀ f ∈ es, ¬ f.key < name := by
        intro f hf hlt
        exact he (List.lt_trans (ha.1 f hf) hlt)
      have hcount : es.countP (fun f => f.key < name) = 0 := by
        rw [List.countP_eq_zero]
        intro f hf
        simpa using hlater f hf
      simp only [he, hcount, decide_false, Bool.false_eq_true, ↓reduceIte, Nat.add_zero,
        Nat.not_lt_zero, iff_false]
      cases i with
      | zero => simpa using he
      | succ i => simpa using hlater _ (List.getElem_mem _)

theorem Ascending.eq_place (ha : Ascending es) (hi : i < es.length) (name : List Byte) :
    es[i].key = name ↔ i = placeOf es name ∧ (lookup es name).isSome = true := by
  have hle : ∀ j (hj : j < es.length), es[j].key = name → placeOf es name = j := by
    intro j hj hk
    have hnot : ¬ j < placeOf es name := by
      rw [← ha.lt_place hj, hk]
      exact List.lt_irrefl _
    by_contra hne
    have hlt : placeOf es name < j := by omega
    rw [ascending_iff, List.pairwise_iff_getElem] at ha
    have hkey := ha _ _ (by omega) hj hlt
    rw [hk, (ascending_iff.2 (List.pairwise_iff_getElem.2 ha)).lt_place] at hkey
    exact Nat.lt_irrefl _ hkey
  constructor
  · intro hk
    refine ⟨(hle i hi hk).symm, ?_⟩
    rw [(lookup_eq_some ha).2 ⟨List.getElem_mem hi, hk⟩]
    rfl
  · rintro ⟨rfl, hit⟩
    obtain ⟨e, he⟩ := Option.isSome_iff_exists.1 hit
    obtain ⟨hmem, hk⟩ := (lookup_eq_some ha).1 he
    obtain ⟨j, hj, rfl⟩ := List.getElem_of_mem hmem
    obtain rfl := hle j hj hk
    exact hk

theorem cacheNamePosLoop_fits (h : Cache.Holds c es) (ha : Ascending es) {text : List Byte}
    (hl : namelen ≤ text.length) {fuel first last : Nat} (hle : last ≤ es.length) :
    cacheNamePosLoop c.activeCache text namelen fuel first last ≠ none ↔
      midpointsFit (placeOf es (text.take namelen)) (lookup es (text.take namelen)).isSome fuel
        first last = true := by
  obtain ⟨name, hname⟩ : ∃ name, text.take namelen = name := ⟨_, rfl⟩
  rw [hname]
  induction fuel generalizing first last with
  | zero => simp [cacheNamePosLoop, midpointsFit]
  | succ fuel ih =>
    rw [cacheNamePosLoop, midpointsFit]
    by_cases hlt : last > first
    · rw [if_pos hlt, if_pos hlt]
      by_cases hsum : last + first < 2 ^ 31
      · have hnext : (last + first) / 2 < es.length := by omega
        have hk := (es[(last + first) / 2]).namelen_lt
        have hceq := cacheNameCompare_eq hl (Nat.le_of_lt hk)
        have hclt := cacheNameCompare_lt hl (Nat.le_of_lt hk)
        rw [hname] at hceq hclt
        have hplace := ha.lt_place hnext name
        have hhit := ha.eq_place hnext name
        simp only [if_pos hsum, h.slot hnext]
        by_cases heq : name = (es[(last + first) / 2]).key
        · rw [if_pos (hceq.2 heq), if_pos (hhit.1 heq.symm)]
          simp
        · rw [if_neg fun h0 => heq (hceq.1 h0), if_neg fun h0 => heq (hhit.2 h0).symm]
          by_cases hless : name < (es[(last + first) / 2]).key
          · have hge : placeOf es name ≤ (last + first) / 2 := by
              rw [← Nat.not_lt, ← hplace]
              intro hgt
              exact List.lt_irrefl _ (List.lt_trans hless hgt)
            rw [if_pos (hclt.2 hless), if_pos hge]
            exact ih (by omega)
          · have hgt := hplace.1 (lt_of_not_compare heq hless)
            rw [if_neg fun h0 => hless (hclt.1 h0), if_neg (by omega)]
            exact ih hle
      · rw [if_neg hsum, if_neg hsum]
        simp
    · rw [if_neg hlt, if_neg hlt]
      simp

theorem cacheNamePos_fits (h : Cache.Holds c es) (ha : Ascending es) {text : List Byte}
    (hl : namelen ≤ text.length) :
    cacheNamePos c text namelen ≠ none ↔ SearchFits es (text.take namelen) := by
  have hlast : (toInt c.activeNr).toNat = es.length := by
    rw [h.nr, toInt_of_lt h.length_lt, Int.toNat_natCast]
  rw [cacheNamePos, hlast]
  exact cacheNamePosLoop_fits h ha hl (Nat.le_refl _)

/-- The loop closes the gap: behind `l` come the slots of `r`, and one of them twice. -/
theorem Remove.shiftDown_eq (l r rest : List (Option CacheEntry)) (x : Option CacheEntry)
    (hr : r.length ≤ n) : ∃ y, Remove.shiftDown n (l ++ x :: r ++ rest) (l.length + 1)
      (l.length + r.length + 1) = some (l ++ r ++ y :: rest) := by
  induction r generalizing l x n with
  | nil =>
    refine ⟨x, ?_⟩
    cases n with
    | zero => simp [Remove.shiftDown]
    | succ n => simp [Remove.shiftDown]
  | cons b r ih =>
    obtain ⟨n, rfl⟩ : ∃ k, n = k + 1 := ⟨n - 1, by simp at hr; omega⟩
    obtain ⟨y, hy⟩ := ih (l ++ [b]) b (n := n) (by simpa using hr)
    refine ⟨y, ?_⟩
    have hget : (l ++ x :: b :: r ++ rest)[l.length + 1]? = some b := by
      rw [List.append_assoc, List.getElem?_append_right (by omega)]
      simp
    have hstore : store (l ++ x :: b :: r ++ rest) l.length b =
        some ((l ++ [b]) ++ b :: r ++ rest) := by
      rw [List.append_assoc, List.cons_append, store_append]
      simp
    rw [Remove.shiftDown, if_pos (by simp), hget]
    simp only [Option.bind_eq_bind, Option.bind_some, Nat.add_sub_cancel, hstore]
    have hlen : (l ++ [b]).length = l.length + 1 := by simp
    rw [hlen] at hy
    rw [show l.length + (b :: r).length + 1 = l.length + 1 + r.length + 1 by simp; omega, hy]
    simp

theorem Cache.Holds.shiftDown (hc : Cache.Holds c (l ++ e :: r)) : ∃ slots,
    Remove.shiftDown c.activeNr c.activeCache (l.length + 1) c.activeNr = some slots ∧
      Cache.Holds
        { c with activeCache := slots, activeNr := (c.activeNr + 2 ^ 32 - 1) % 2 ^ 32 }
        (l ++ r) := by
  have hnr := hc.nr
  have hlt := hc.length_lt
  have hlen := hc.len
  obtain ⟨rest, hslots⟩ := hc.slots
  have hsplit : c.activeCache = l.map some ++ some e :: r.map some ++ rest := by
    rw [hslots]
    simp
  rw [List.length_append, List.length_cons] at hnr hlt
  obtain ⟨y, hy⟩ := Remove.shiftDown_eq (l.map some) (r.map some) rest (some e)
    (n := c.activeNr) (by rw [List.length_map]; omega)
  rw [List.length_map, List.length_map, ← hsplit] at hy
  have hcount : l.length + r.length + 1 = c.activeNr := by omega
  have hdec : (c.activeNr + 2 ^ 32 - 1) % 2 ^ 32 = (l ++ r).length := by
    rw [List.length_append]
    omega
  rw [hcount] at hy
  refine ⟨_, hy, ?_⟩
  rw [hdec]
  refine ⟨rfl, ?_, hc.alloc, y :: rest, by simp⟩
  rw [hsplit] at hlen
  simp only [List.length_append, List.length_cons, List.length_map] at hlen ⊢
  omega

/-- In the given surroundings, `read_cache` has one outcome. -/
def ReadsOnly (ok : (o : Op) → o.Res → Prop) (L : Lib) (fs : FS)
    (x : Except Stop (Int × Cache)) : Prop :=
  RunsTo ok fs (readCache L Cache.null) x fs ∧
    ∀ y fs', RunsTo ok fs (readCache L Cache.null) y fs' → y = x

/-- What a deletion in `remove.c` is for: one entry is erased, and the others keep their order. -/
def Remove.Erases (ok : (o : Op) → o.Res → Prop) (L : Lib) (fs : FS) (c : Cache)
    (es : List CacheEntry) (path : Path) : Prop :=
  ∀ x fs', RunsTo ok fs (Remove.removeFileFromCache L Cache.null path) x fs' →
    ∃ pos c', x = .ok (pos, c') ∧ c'.Holds (others es path) ∧
      (lookup es path = none → c' = c)

section Loaded
variable {ok : (o : Op) → o.Res → Prop} {fs fs' : FS} {L : Lib} {c : Cache} {path : Path}

theorem ReadsOnly.search (h : ReadsOnly ok L fs (.ok (n, c))) (hn : 0 ≤ n)
    (hx : RunsTo ok fs (Remove.cacheNamePos L Cache.null path path.length) x fs') :
    fs' = fs ∧ x = match cacheNamePos c path path.length with
      | some pos => .ok (pos, c)
      | none => .error .fault := by
  rw [Remove.cacheNamePos, runs_seq] at hx
  rcases hx with ⟨r, fs₁, hread, hx⟩ | ⟨e, rfl, hread⟩
  · obtain rfl := (readCache_outcome hread).1
    cases h.2 _ _ hread
    dsimp only at hx
    rw [if_neg (by omega), runs_defined] at hx
    rcases hx with ⟨pos, hpos, hx⟩ | ⟨hpos, rfl, rfl⟩
    · rw [hpos]
      exact (Prog.runs_pure.1 hx).symm
    · rw [hpos]
      exact ⟨rfl, rfl⟩
  · cases h.2 _ _ hread

theorem ReadsOnly.search_runs (h : ReadsOnly ok L fs (.ok (n, c))) (hn : 0 ≤ n)
    (hpos : cacheNamePos c path path.length = none) :
    RunsTo ok fs (Remove.cacheNamePos L Cache.null path path.length) (.error .fault) fs := by
  rw [Remove.cacheNamePos, runs_seq]
  refine .inl ⟨_, _, h.1, ?_⟩
  dsimp only
  rw [if_neg (by omega), runs_defined]
  exact .inr ⟨hpos, rfl, rfl⟩

theorem ReadsOnly.erases (h : ReadsOnly ok L fs (.ok (n, c))) (hn : 0 ≤ n) (hc : c.Holds es)
    (ha : Ascending es) (hpos : cacheNamePos c path path.length = some pos) :
    Remove.Erases ok L fs c es path := by
  have hspec := cacheNamePos_spec hc (Nat.le_refl _) hpos
  rw [List.take_length] at hspec
  intro x fs' hx
  rw [Remove.removeFileFromCache, runs_seq] at hx
  rcases hx with ⟨r, fs₁, hsearch, hx⟩ | ⟨e, rfl, hsearch⟩
  · obtain ⟨rfl, hr⟩ := h.search hn hsearch
    rw [hpos] at hr
    cases hr
    dsimp only at hx
    cases hspec with
    | found l r e hp hes he =>
      subst hes he
      obtain ⟨slots, hy, hholds⟩ := hc.shiftDown
      rw [if_pos (by omega), show (-pos - 1).toNat = l.length by omega, runs_defined, hy] at hx
      rcases hx with ⟨slots', heq, hx⟩ | ⟨heq, -⟩
      · cases heq
        obtain ⟨rfl, -⟩ := Prog.runs_pure.1 hx
        refine ⟨_, _, rfl, ?_, ?_⟩
        · rw [others_split ha]
          exact hholds
        · intro hnone
          exact absurd rfl (lookup_eq_none.1 hnone e (by simp))
      · cases heq
    | absent l r hp hes hl hr =>
      rw [if_neg (by omega)] at hx
      obtain ⟨rfl, -⟩ := Prog.runs_pure.1 hx
      refine ⟨_, _, rfl, ?_, fun _ => rfl⟩
      subst hes
      rw [others_of_ne (ha.ordered.absent hl hr)]
      exact hc
  · obtain ⟨-, hr⟩ := h.search hn hsearch
    rw [hpos] at hr
    cases hr

end Loaded

/-- The deletion in `remove.c` does what it is for if and only if no sum of bounds in the search
overflows, which none does as long as there are at most 2^30 entries. -/
theorem removal_erases_loaded {ok : (o : Op) → o.Res → Prop} {fs : FS}
    (h : ReadsOnly ok L fs (.ok (n, c))) (hn : 0 ≤ n) (hc : c.Holds es) (ha : Ascending es)
    (path : CStr) :
    (Remove.Erases ok L fs c es path.1 ↔ SearchFits es path.1) ∧
      (es.length ≤ 2 ^ 30 → SearchFits es path.1) := by
  have hfits := cacheNamePos_fits hc ha (Nat.le_refl path.1.length)
  rw [List.take_length] at hfits
  refine ⟨⟨?_, ?_⟩, ?_⟩
  · intro hall
    rw [← hfits]
    intro hpos
    have hrun : RunsTo ok fs (Remove.removeFileFromCache L Cache.null path.1) (.error .fault)
        fs := by
      rw [Remove.removeFileFromCache, runs_seq]
      exact .inr ⟨_, rfl, h.search_runs hn hpos⟩
    obtain ⟨pos, c', heq, -⟩ := hall _ _ hrun
    cases heq
  · intro hfit
    obtain ⟨pos, hpos⟩ := Option.ne_none_iff_exists'.1 (hfits.2 hfit)
    exact h.erases hn hc ha hpos
  · intro hle
    obtain ⟨pos, hpos⟩ := cacheNamePos_total hc hle path.1 path.1.length
    rw [← hfits, hpos]
    simp

def withIndex (es : List CacheEntry) : FS :=
  ⟨Function.update FS.empty.dir indexPath (some 0), fun _ => cacheImage storedLib es, 1⟩

theorem withIndex_reads (es : List CacheEntry) (h0 : 0 < es.length) (hn : es.length ≤ 1431655749) :
    ReadsOnly Granted storedLib (withIndex es) (.ok ((es.length : Int), reloaded es)) := by
  have hd : (withIndex es).dir indexPath = some 0 := by
    simp only [withIndex, Function.update_self]
  have hlt : es.length < 2 ^ 31 := by omega
  have hruns : ∀ y fs', RunsTo Granted (withIndex es) (readCache storedLib Cache.null) y fs' ↔
      fs' = withIndex es ∧ y = .ok ((es.length : Int), reloaded es) := by
    intro y fs'
    rw [readCache_runs hd (cacheImage_length_lt storedLib hlt),
      show (withIndex es).data 0 = cacheImage storedLib es from rfl, readBack_image hlt,
      if_pos ⟨h0, hn⟩]
  exact ⟨(hruns _ _).2 ⟨rfl, rfl⟩, fun y fs' hy => ((hruns y fs').1 hy).2⟩

theorem removal_erases_loaded_two :
    Remove.Erases Granted storedLib (withIndex [plainEntry (cstr "a"), plainEntry (cstr "b")])
      (reloaded [plainEntry (cstr "a"), plainEntry (cstr "b")])
      ([plainEntry (cstr "a"), plainEntry (cstr "b")].map CacheEntry.trim) (cstr "a").1 := by
  have hload := withIndex_reads [plainEntry (cstr "a"), plainEntry (cstr "b")] (by decide)
    (by decide)
  have hc : (reloaded [plainEntry (cstr "a"), plainEntry (cstr "b")]).Holds
      ([plainEntry (cstr "a"), plainEntry (cstr "b")].map CacheEntry.trim) :=
    reloaded_holds (by decide)
  have ha : Ascending ([plainEntry (cstr "a"), plainEntry (cstr "b")].map CacheEntry.trim) := by
    rw [ascending_iff]
    decide
  obtain ⟨hiff, hsmall⟩ := removal_erases_loaded hload (by decide) hc ha (cstr "a")
  exact hiff.2 (hsmall (by decide))

/-- With 2^30 + 1 entries, the search for a name behind all of them overflows. -/
theorem removal_overflows : ¬ ∀ ok L fs n c es (path : CStr), ReadsOnly ok L fs (.ok (n, c)) →
    0 ≤ n → Cache.Holds c es → Ascending es → Remove.Erases ok L fs c es path.1 := by
  intro hall
  obtain ⟨k, hk⟩ : ∃ k, k = 2 ^ 30 + 1 := ⟨_, rfl⟩
  have hlen : ((List.range k).map numbered).length = k := by simp
  have hload := withIndex_reads ((List.range k).map numbered) (by omega) (by omega)
  have hc : (reloaded ((List.range k).map numbered)).Holds
      (((List.range k).map numbered).map CacheEntry.trim) := reloaded_holds (by omega)
  have ha : Ascending (((List.range k).map numbered).map CacheEntry.trim) := by
    have ha := numbered_ascending (n := k) (by omega)
    rw [ascending_iff] at ha ⊢
    rw [List.pairwise_map]
    simpa only [CacheEntry.trim_key] using ha
  have hover : cacheNamePos (reloaded ((List.range k).map numbered)) (tally 6 k)
      (tally 6 k).length = none := by
    apply search_behind_overflows hc
    · rw [List.length_map, hlen]
      omega
    · exact Nat.le_refl _
    · intro e he
      rw [List.map_map, List.mem_map] at he
      obtain ⟨i, hi, rfl⟩ := he
      rw [List.take_length, Function.comp_apply, CacheEntry.trim_key, numbered_key]
      exact tally_lt (List.mem_range.1 hi) (by omega)
  have hrun : RunsTo Granted (withIndex ((List.range k).map numbered))
      (Remove.removeFileFromCache storedLib Cache.null (tally 6 k)) (.error .fault)
      (withIndex ((List.range k).map numbered)) := by
    rw [Remove.removeFileFromCache, runs_seq]
    exact .inr ⟨_, rfl, hload.search_runs (by omega) hover⟩
  obtain ⟨pos, c', heq, -⟩ := hall _ _ _ _ _ _ ⟨tally 6 k, tally_no_nul 6 k⟩ hload (by omega) hc ha
    _ _ hrun
  cases heq

theorem loadCache_negative (h : loadCache L c b = some (r, c')) (hr : r < 0) : r = -1 ∧ c' = c := by
  rw [loadCache] at h
  split at h
  · cases h
    exact ⟨rfl, rfl⟩
  · obtain ⟨filled, hfill, heq⟩ := Option.map_eq_some_iff.1 h
    have hle := (fillCache_length hfill).2 (Nat.zero_le _)
    have hlt := allocNr_lt (wordAt b 8).toNat
    have hint := congrArg Prod.fst heq
    rw [toInt_of_lt (by omega)] at hint
    simp only at hint
    omega

theorem readCache_negative {ok : (o : Op) → o.Res → Prop}
    (h : RunsTo ok fs (readCache L Cache.null) (.ok (r, c)) fs') (hr : r < 0) :
    r = -1 ∧ c = Cache.null := by
  rcases (readCache_outcome h).2 with heq | heq
  · cases heq
    exact ⟨rfl, rfl⟩
  · cases hb : fs.read indexPath with
    | none =>
      rw [hb] at heq
      cases heq
      omega
    | some b =>
      rw [hb, readResult, readBack] at heq
      split at heq
      · cases hload : loadCache L Cache.null b with
        | none =>
          rw [hload] at heq
          cases heq
        | some r' =>
          rw [hload] at heq
          cases heq
          exact loadCache_negative hload hr
      · cases heq

/-- The cache stays as it was, and nothing is read of it, hence nothing printed. -/
def LeftAlone (ok : (o : Op) → o.Res → Prop) (L : Lib) (fs : FS) (path : CStr) : Prop :=
  (∀ x fs', RunsTo ok fs (Remove.removeFileFromCache L Cache.null path.1) x fs' →
    ∃ pos, x = .ok (pos, Cache.null)) ∧
  ∀ arg₀ arg₁ rest x fs',
    RunsTo ok fs (removeFunction L (arg₀ :: arg₁ :: path :: rest)) x fs' →
      ∃ pos, x = .ok (pos, [])

theorem ReadsOnly.of_failing {ok : (o : Op) → o.Res → Prop} {fs : FS}
    (hrun : ∃ x, RunsTo ok fs (readCache L Cache.null) x fs)
    (hfail : ∀ x fs', RunsTo ok fs (readCache L Cache.null) x fs' →
      ∃ r c, x = .ok (r, c) ∧ r < 0) :
    ReadsOnly ok L fs (.ok (-1, Cache.null)) := by
  have honly : ∀ y fs', RunsTo ok fs (readCache L Cache.null) y fs' →
      y = .ok (-1, Cache.null) := by
    intro y fs' hy
    obtain ⟨r, c, rfl, hr⟩ := hfail y fs' hy
    obtain ⟨rfl, rfl⟩ := readCache_negative hy hr
    rfl
  obtain ⟨x, hx⟩ := hrun
  exact ⟨honly x fs hx ▸ hx, honly⟩

def wrapped : Cache := { Cache.null with activeNr := 2 ^ 32 - 1 }

theorem ReadsOnly.failed {ok : (o : Op) → o.Res → Prop} {fs fs' : FS}
    (h : ReadsOnly ok L fs (.ok (-1, Cache.null))) (path : Path) :
    RunsTo ok fs (Remove.removeFileFromCache L Cache.null path) x fs' ↔
      x = .ok (-1, wrapped) ∧ fs' = fs := by
  have hrest : ∀ y fs₁, RunsTo ok fs (Remove.cacheNamePos L Cache.null path path.length) y fs₁ ↔
      y = .ok (-1, Cache.null) ∧ fs₁ = fs := by
    intro y fs₁
    rw [Remove.cacheNamePos, runs_seq]
    constructor
    · rintro (⟨r, fs₂, hread, hx⟩ | ⟨e, rfl, hread⟩)
      · obtain rfl := (readCache_outcome hread).1
        cases h.2 _ _ hread
        exact Prog.runs_pure.1 hx
      · cases h.2 _ _ hread
    · rintro ⟨rfl, rfl⟩
      exact .inl ⟨_, _, h.1, Prog.runs_pure.2 ⟨rfl, rfl⟩⟩
  rw [Remove.removeFileFromCache, runs_seq]
  constructor
  · rintro (⟨r, fs₁, hsearch, hx⟩ | ⟨e, rfl, hsearch⟩)
    · obtain ⟨heq, rfl⟩ := (hrest _ _).1 hsearch
      cases heq
      exact Prog.runs_pure.1 hx
    · cases ((hrest _ _).1 hsearch).1
  · rintro ⟨rfl, rfl⟩
    exact .inl ⟨_, _, (hrest _ _).2 ⟨rfl, rfl⟩, Prog.runs_pure.2 ⟨rfl, rfl⟩⟩

theorem ReadsOnly.function_failed {ok : (o : Op) → o.Res → Prop} {fs fs' : FS}
    (h : ReadsOnly ok L fs (.ok (-1, Cache.null))) (arg₀ arg₁ path : CStr) (rest : List CStr) :
    RunsTo ok fs (removeFunction L (arg₀ :: arg₁ :: path :: rest)) x fs' ↔
      x = .error .fault ∧ fs' = fs := by
  have hnames : Remove.printNames wrapped.activeNr wrapped.activeCache = none := rfl
  change RunsTo ok fs (Remove.removeFileFromCache L Cache.null path.1 >>= _) x fs' ↔ _
  rw [runs_seq]
  constructor
  · rintro (⟨r, fs₁, hremove, hx⟩ | ⟨e, rfl, hremove⟩)
    · obtain ⟨heq, rfl⟩ := (h.failed path.1).1 hremove
      cases heq
      rw [runs_defined, hnames] at hx
      rcases hx with ⟨names, heq, -⟩ | ⟨-, hx⟩
      · cases heq
      · exact hx
    · cases ((h.failed path.1).1 hremove).1
  · rintro ⟨rfl, rfl⟩
    refine .inl ⟨_, _, (h.failed path.1).2 ⟨rfl, rfl⟩, ?_⟩
    rw [runs_defined]
    exact .inr ⟨hnames, rfl, rfl⟩

/-- Whenever the index cannot be loaded, the error code is taken for the first position: the count
of the null array wraps around, and printing its first entry follows a null pointer. -/
theorem failed_load_wraps {ok : (o : Op) → o.Res → Prop} {fs : FS}
    (hrun : ∃ x, RunsTo ok fs (readCache L Cache.null) x fs)
    (hfail : ∀ x fs', RunsTo ok fs (readCache L Cache.null) x fs' →
      ∃ r c, x = .ok (r, c) ∧ r < 0) (arg₀ arg₁ path : CStr) (rest : List CStr) :
    (∀ x fs', RunsTo ok fs (Remove.removeFileFromCache L Cache.null path.1) x fs' ↔
      x = .ok (-1, ⟨[], 2 ^ 32 - 1, 0⟩) ∧ fs' = fs) ∧
    (∀ x fs', RunsTo ok fs (removeFunction L (arg₀ :: arg₁ :: path :: rest)) x fs' ↔
      x = .error .fault ∧ fs' = fs) ∧
    ¬ LeftAlone ok L fs path := by
  have h := ReadsOnly.of_failing hrun hfail
  refine ⟨fun x fs' => h.failed path.1, fun x fs' => h.function_failed arg₀ arg₁ path rest, ?_⟩
  intro halone
  obtain ⟨pos, heq⟩ := halone.2 arg₀ arg₁ rest _ _ ((h.function_failed arg₀ arg₁ path rest).2
    ⟨rfl, rfl⟩)
  cases heq

def NoAccess : (o : Op) → o.Res → Prop
  | .accessDir _, (r : Bool) => r = false
  | _, _ => True

theorem noAccess_reads (fs : FS) : RunsTo NoAccess fs (readCache L Cache.null) x fs' ↔
    x = .ok (-1, Cache.null) ∧ fs' = fs := by
  simp only [readCache, ne_eq, Cache.null, not_true_eq_false, ↓reduceIte, runs_accessDir]
  constructor
  · rintro ⟨r, hr : r = false, h⟩
    subst hr
    exact Prog.runs_pure.1 h
  · rintro ⟨rfl, rfl⟩
    exact ⟨false, rfl, Prog.runs_pure.2 ⟨rfl, rfl⟩⟩

theorem failed_load_wraps_no_access :
    (∀ x fs', RunsTo NoAccess FS.empty
      (Remove.removeFileFromCache storedLib Cache.null (cstr "a").1) x fs' ↔
        x = .ok (-1, ⟨[], 2 ^ 32 - 1, 0⟩) ∧ fs' = FS.empty) ∧
    (∀ x fs', RunsTo NoAccess FS.empty
      (removeFunction storedLib [cstr "git", cstr "--rm", cstr "a"]) x fs' ↔
        x = .error .fault ∧ fs' = FS.empty) ∧
    ¬ LeftAlone NoAccess storedLib FS.empty (cstr "a") :=
  failed_load_wraps ⟨_, (noAccess_reads _).2 ⟨rfl, rfl⟩⟩
    (fun x fs' hx => ⟨-1, Cache.null, ((noAccess_reads _).1 hx).1, by decide⟩) (cstr "git")
    (cstr "--rm") (cstr "a") []

/-- An index of 33 zeros has no valid header. -/
theorem removal_after_error : ¬ ∀ ok L fs (path : CStr),
    (∃ x, RunsTo ok fs (readCache L Cache.null) x fs) →
    (∀ x fs', RunsTo ok fs (readCache L Cache.null) x fs' → ∃ r c, x = .ok (r, c) ∧ r < 0) →
    LeftAlone ok L fs path := by
  intro hall
  obtain ⟨fs, hfs⟩ : ∃ fs : FS, fs = ⟨Function.update FS.empty.dir indexPath (some 0),
    fun _ => List.replicate 33 0, 1⟩ := ⟨_, rfl⟩
  have hd : fs.dir indexPath = some 0 := by
    rw [hfs]
    simp only [Function.update_self]
  have hdata : fs.data 0 = List.replicate 33 0 := by rw [hfs]
  have hback : readBack storedLib (List.replicate 33 0) = .ok (-1, Cache.null) := by
    decide +kernel
  have hruns : ∀ x fs', RunsTo Granted fs (readCache storedLib Cache.null) x fs' ↔
      fs' = fs ∧ x = .ok (-1, Cache.null) := by
    intro x fs'
    rw [readCache_runs hd (by rw [hdata]; decide), hdata, hback]
  have hreads : ReadsOnly Granted storedLib fs (.ok (-1, Cache.null)) :=
    ⟨(hruns _ _).2 ⟨rfl, rfl⟩, fun y fs' hy => ((hruns y fs').1 hy).2⟩
  have halone := hall Granted storedLib fs (cstr "a") ⟨_, (hruns _ _).2 ⟨rfl, rfl⟩⟩
    fun x fs' hx => ⟨-1, Cache.null, ((hruns x fs').1 hx).2, by decide⟩
  obtain ⟨pos, heq⟩ := halone.2 (cstr "git") (cstr "--rm") [] _ _
    ((hreads.function_failed _ _ _ _).2 ⟨rfl, rfl⟩)
  cases heq

end SelfGit
