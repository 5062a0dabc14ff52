import SelfGit.Erasing
import SelfGit.Remove
import SelfGit.TreeRoundTrip

namespace SelfGit
open Foundation
set_option autoImplicit true

/-- `!strcmp(mem, s)` for memory that need not hold a NUL, and a string without its own. -/
def strcmpEq : List Byte → List Byte → Option Bool
  | [], _ => none
  | b :: _, [] => some (decide (b = 0))
  | b :: mem, c :: s => if b = c then strcmpEq mem s else some false

/-- The scan of `status` over the first entries. -/
def scanCache : Nat → List (Option CacheEntry) → Path → Option Bool
  | 0, _, _ => some false
  | n + 1, some ce :: slots, path => do
    let found ← strcmpEq ce.name path
    if found then some true else scanCache n slots path
  | _ + 1, _, _ => none

/-- What is printed for the words of the command line, those of the wrong form left out. -/
def statusLines (entries : Nat) (c : Cache) : List CStr → Option (List (List Byte))
  | [] => some []
  | path :: rest =>
    if verifyPath path then do
      let found ← scanCache entries c.activeCache path.1
      let lines ← statusLines entries c rest
      some ((path.1 ++ (if found then str " has been added to cache!\n"
        else str " has not been added!\n")) :: lines)
    else statusLines entries c rest

/-- The result of `status`, and the lines behind its heading. -/
def status (L : Lib) (argv : List CStr) : Proc (Int × List (List Byte)) := do
  let (entries, c) ← readCache L Cache.null
  if entries < 0 then return (-1, [])
  else
    let lines ← defined (statusLines entries.toNat c (argv.drop 2))
    return (0, lines)

theorem strcmpEq_self (s t : List Byte) : strcmpEq (s ++ 0 :: t) s = some true := by
  induction s with
  | nil => rfl
  | cons c s ih => rw [List.cons_append, strcmpEq, if_pos rfl, ih]

theorem strcmpEq_ne (hs : 0 ∉ s) (hp : 0 ∉ p) (hne : s ≠ p) (t : List Byte) :
    strcmpEq (s ++ 0 :: t) p = some false := by
  induction s generalizing p with
  | nil =>
    cases p with
    | nil => exact absurd rfl hne
    | cons c p =>
      rw [List.mem_cons, not_or] at hp
      rw [List.nil_append, strcmpEq, if_neg hp.1]
  | cons b s ih =>
    rw [List.mem_cons, not_or] at hs
    cases p with
    | nil => simp only [List.cons_append, strcmpEq, Ne.symm hs.1, decide_false]
    | cons c p =>
      rw [List.mem_cons, not_or] at hp
      rw [List.cons_append, strcmpEq]
      split
      · rename_i hbc
        subst hbc
        exact ih hs.2 hp.2 fun h => hne (by rw [h])
      · rfl

theorem strcmpEq_named (h : CacheEntry.Named ce) (path : CStr) :
    strcmpEq ce.name path.1 = some (decide (ce.key = path.1)) := by
  obtain ⟨t, ht, h0, -⟩ := strlen_spec h
  have hname : ce.name = ce.key ++ 0 :: t := ht
  by_cases hk : ce.key = path.1
  · rw [hname, hk, strcmpEq_self]
    simp
  · have hne := strcmpEq_ne (s := ce.key) h0 path.2 hk t
    rw [hname, hne]
    simp [hk]

theorem scanCache_named {es : List CacheEntry} (hn : ∀ e ∈ es, e.Named)
    (rest : List (Option CacheEntry)) (path : CStr) : ∃ found,
      scanCache es.length (es.map some ++ rest) path.1 = some found ∧
      (found = true ↔ ∃ e ∈ es, e.key = path.1) := by
  induction es with
  | nil => exact ⟨false, rfl, by simp⟩
  | cons e es ih =>
    obtain ⟨found, hscan, hfound⟩ := ih fun f hf => hn f (List.mem_cons_of_mem _ hf)
    have hcmp := strcmpEq_named (hn e List.mem_cons_self) path
    simp only [List.length_cons, List.map_cons, List.cons_append, scanCache, hcmp,
      Option.bind_eq_bind, Option.bind_some, List.exists_mem_cons_iff]
    by_cases hk : e.key = path.1
    · exact ⟨true, by simp [hk], by simp [hk]⟩
    · exact ⟨found, by simp [hk, hscan], by simp [hk, hfound]⟩

theorem CacheEntry.Named.trim (h : CacheEntry.Named ce) : ce.trim.Named := by
  obtain ⟨t, ht, h0, -⟩ := strlen_spec h
  have hk : ce.key.length = ce.namelen.toNat := ce.key_length
  have hb := nameOffset_lt_ceSize ce
  obtain ⟨m, hm⟩ : ∃ m, ceSize ce - nameOffset = ce.key.length + (m + 1) :=
    ⟨ceSize ce - nameOffset - ce.namelen.toNat - 1, by omega⟩
  have hname : ce.trim.name = ce.key ++ 0 :: t.take m := by
    change ce.name.take (ceSize ce - nameOffset) = _
    rw [hm, show ce.name = ce.key ++ 0 :: t from ht, List.take_length_add_append,
      List.take_succ_cons]
  have hlen := strlen_append ce.key (t.take m) h0
  rw [hk] at hlen
  rw [CacheEntry.Named, hname]
  exact hlen

theorem Added.ordered (h : Added es ce es') (ho : Ordered es) : Ordered es' := by
  cases h with
  | replaced l r e hes he h' =>
    subst hes h'
    rw [Ordered, List.pairwise_append, List.pairwise_cons] at ho ⊢
    simp only [List.mem_cons, forall_eq_or_imp, he] at ho ⊢
    exact ho
  | inserted l r hes hl hr h' =>
    subst hes h'
    have hal := (ho.sublist (List.sublist_append_left l r)).all_lt hl
    have har := (ho.sublist (List.sublist_append_right l r)).all_gt hr
    rw [Ordered, List.pairwise_append] at ho
    rw [Ordered, List.pairwise_append, List.pairwise_cons]
    refine ⟨ho.1, ⟨?_, ho.2.1⟩, ?_⟩
    · intro b hb hlt
      exact List.lt_irrefl _ (List.lt_trans hlt (har b hb))
    · intro a hm b hb
      rcases List.mem_cons.1 hb with rfl | hb
      · intro hlt
        exact List.lt_irrefl _ (List.lt_trans hlt (hal a hm))
      · exact ho.2.2 a hm b hb

theorem Ordered.repeat_last (h : Ordered (l ++ [e])) : Ordered (l ++ [e] ++ [e]) := by
  refine List.pairwise_append.2 ⟨h, List.pairwise_singleton _ _, ?_⟩
  intro a ha b hb
  rw [List.mem_singleton.1 hb]
  rcases List.mem_append.1 ha with ha | ha
  · exact (List.pairwise_append.1 h).2.2 a ha e (List.mem_singleton.2 rfl)
  · rw [List.mem_singleton.1 ha]
    exact List.lt_irrefl _

theorem dropSlot_ordered (h : Ordered es) : Ordered (dropSlot es k) := by
  by_cases hk : k + 1 < es.length
  · have hinit := h.sublist (List.take_sublist (es.length - 1) es)
    have hlen : (es.take (es.length - 1)).length = es.length - 1 := by
      rw [List.length_take]
      omega
    obtain ⟨init, x, hx⟩ := (List.eq_nil_or_concat (es.take (es.length - 1))).resolve_left
      (List.ne_nil_of_length_pos (by omega))
    rw [List.concat_eq_append] at hx
    have hdrop : (init ++ [x]).drop (es.length - 2) = [x] := by
      rw [hx, List.length_append, List.length_singleton] at hlen
      rw [List.drop_left' (by omega)]
    rw [dropSlot_eq hk, hx, hdrop]
    rw [hx] at hinit
    exact hinit.repeat_last.sublist ((List.eraseIdx_sublist _ _).append_right _)
  · rw [dropSlot, if_neg hk]
    exact h.sublist (List.take_sublist _ _)

theorem Removed.ordered (h : Removed es path es') (ho : Ordered es) : Ordered es' := by
  cases h with
  | found l r e hes he h' =>
    rw [h']
    exact dropSlot_ordered ho
  | absent l r hes hl hr h' =>
    rw [h']
    exact ho

/-- What every index keeps: names in order, each as long as it says. -/
structure Searchable (es : List CacheEntry) : Prop where
  ordered : Ordered es
  named : ∀ e ∈ es, CacheEntry.Named e

theorem Searchable.trim (h : Searchable es) : Searchable (es.map CacheEntry.trim) where
  ordered := by
    rw [Ordered, List.pairwise_map]
    simp only [CacheEntry.trim_key]
    exact h.ordered
  named e he := by
    obtain ⟨f, hf, rfl⟩ := List.mem_map.1 he
    exact (h.named f hf).trim

theorem Edits.searchable (h : Edits L ok objects c ps c') (hc : c.Holds es)
    (hs : Searchable es) : ∃ es', c'.Holds es' ∧ Searchable es' := by
  refine h.preserves ?_ ?_ hc hs
  · intro es es' p fd st s hp _ _ hadd hs
    refine ⟨hadd.ordered hs.ordered, ?_⟩
    intro e he
    rcases hadd.mem he with rfl | he
    · exact newEntry_named (fits_of_lt_pathMax hp)
    · exact hs.named e he
  · intro c es es' p _ _ _ hrem hs
    exact ⟨hrem.ordered hs.ordered, fun e he => hs.named e (hrem.mem he)⟩

theorem Session.searchable (hg : fs.Good) (h0 : fs.dir indexPath = none)
    (h : Session L ok fs fs') : IsImage L Searchable (fs'.read indexPath) :=
  (h.image ⟨⟨List.Pairwise.nil, fun _ he => by cases he⟩, fun _ hs => hs.trim⟩
    (fun _ _ _ _ _ he hc hs => he.searchable hc hs) hg h0).2

theorem Session.loads (hg : fs.Good) (h0 : fs.dir indexPath = none) (h : Session L ok fs fs')
    (hr : readResult L (fs'.read indexPath) = .ok (n, c)) :
    ∃ es, c.Holds es ∧ Searchable es ∧ n = (es.length : Int) := by
  have hI := h.searchable hg h0
  cases hb : fs'.read indexPath with
  | none =>
    rw [hb] at hr
    cases hr
    exact ⟨[], Cache.null_holds, ⟨List.Pairwise.nil, fun _ he => by cases he⟩, rfl⟩
  | some b =>
    rw [hb] at hr hI
    obtain ⟨es, hlt, rfl, hs⟩ := hI
    rw [readResult, readBack_image hlt] at hr
    split at hr
    · rename_i hn
      cases hr
      exact ⟨_, reloaded_holds hn.2, hs.trim, by rw [List.length_map]⟩
    · cases hr

/-- In every state that a sequence of `update_cache` runs leads to, the scan of `status` and the
binary searches find the same names. -/
theorem lookups_agree (hg : fs.Good) (h0 : fs.dir indexPath = none)
    (h : Session L anyAnswer fs fs')
    (hr : RunsTo anyAnswer fs' (readCache L Cache.null) (.ok (n, c)) fs'') (hn : 0 ≤ n)
    (hlt : c.activeNr < 2 ^ 30) (p : CStr) :
    ∃ found pos, scanCache n.toNat c.activeCache p.1 = some found ∧
      cacheNamePos c p.1 p.1.length = some pos ∧ (found = true ↔ pos < 0) ∧
      ∀ x fs₁, RunsTo Undisturbed fs' (Remove.cacheNamePos L Cache.null p.1 p.1.length) x fs₁ →
        x = .ok (pos, c) := by
  obtain ⟨rfl, hout⟩ := readCache_outcome hr
  have hres : readResult L (fs''.read indexPath) = .ok (n, c) := by
    rcases hout with hout | hout
    · cases hout
      omega
    · exact hout.symm
  obtain ⟨es, hc, hs, rfl⟩ := h.loads hg h0 hres
  obtain ⟨rest, hslots⟩ := hc.slots
  have hnr := hc.nr
  obtain ⟨found, hscan, hfound⟩ := scanCache_named hs.named rest p
  obtain ⟨pos, hpos⟩ := cacheNamePos_total hc (by omega) p.1 p.1.length
  have hspec := cacheNamePos_spec hc (Nat.le_refl _) hpos
  rw [List.take_length] at hspec
  refine ⟨found, pos, ?_, hpos, ?_, ?_⟩
  · rw [hslots, Int.toNat_natCast]
    exact hscan
  · rw [hfound, hspec.neg_iff hs.ordered]
  · intro x fs₁ hx
    rw [Remove.cacheNamePos, runs_seq] at hx
    rcases hx with ⟨⟨n', c'⟩, fs₂, hread, hx⟩ | ⟨e, rfl, hread⟩
    · obtain ⟨rfl, heq⟩ := readCache_undisturbed hread
      rw [hres] at heq
      cases heq
      dsimp only at hx
      rw [if_neg (by omega), runs_defined, hpos] at hx
      rcases hx with ⟨b, hb, hx⟩ | ⟨hnone, -⟩
      · cases hb
        exact (Prog.runs_pure.1 hx).1
      · cases hnone
    · obtain ⟨-, heq⟩ := readCache_undisturbed hread
      rw [hres] at heq
      cases heq

theorem lookups_agree_two : ∃ fs, Session storedLib anyAnswer FS.empty fs ∧
    ∃ c found pos, scanCache 2 c.activeCache (cstr "b").1 = some found ∧
      cacheNamePos c (cstr "b").1 (cstr "b").1.length = some pos ∧ (found = true ↔ pos < 0) ∧
      ∀ x fs₁, RunsTo Undisturbed fs
        (Remove.cacheNamePos storedLib Cache.null (cstr "b").1 (cstr "b").1.length) x fs₁ →
        x = .ok (pos, c) := by
  have hrun : (Config.drive turn (FS.serve [(str "a", str "x"), (str "b", str "y")])
      (List.replicate 19 ())
      (alone storedLib [cstr "git", cstr "b", cstr "a"] FS.empty)).map
        (fun c => c.shared.read indexPath) =
      some (some (cacheImage storedLib [sampleEntry "a" 120, sampleEntry "b" 121])) := by
    decide +kernel
  obtain ⟨c, hc, hread⟩ := Option.map_eq_some_iff.1 hrun
  have hs : Session storedLib anyAnswer FS.empty c.shared :=
    Session.start.drive (fun _ _ _ _ h => ⟨h, trivial⟩) hc
  obtain ⟨i, hd, hdata⟩ := Option.map_eq_some_iff.1 hread
  have hlt : [sampleEntry "a" 120, sampleEntry "b" 121].length < 2 ^ 31 := by decide
  have hload : RunsTo Granted c.shared (readCache storedLib Cache.null)
      (.ok (2, reloaded [sampleEntry "a" 120, sampleEntry "b" 121])) c.shared := by
    rw [readCache_runs hd (hdata ▸ cacheImage_length_lt storedLib hlt), hdata,
      readBack_image hlt, if_pos (by decide)]
    exact ⟨rfl, rfl⟩
  obtain ⟨found, pos, h⟩ := lookups_agree FS.empty_good rfl hs
    (hload.mono fun _ _ _ _ ha => ⟨ha.1, trivial⟩) (by decide) (by decide) (cstr "b")
  exact ⟨_, hs, _, found, pos, h⟩

end SelfGit
