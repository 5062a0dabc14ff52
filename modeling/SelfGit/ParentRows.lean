import SelfGit.Parents

namespace SelfGit
open Foundation
set_option autoImplicit true

def StartsHex (p : CStr) : Prop := 2 ≤ p.1.length ∧ ∀ c ∈ p.1.take 2, isHexDigit c = true

theorem getSha1HexLoop_stores (n : Nat) (hex : List Byte) :
    (getSha1HexLoop (n + 1) hex).1 ≠ [] ↔ (getSha1HexLoop 1 hex).2 = true := by
  simp only [getSha1HexLoop]
  split
  · simp
  · simp

theorem getSha1Hex_stores (p : CStr) : (getSha1Hex p.1).1 ≠ [] ↔ StartsHex p :=
  (getSha1HexLoop_stores 19 p.1).trans (getSha1HexLoop_spec 1 p.1).1

theorem IsHex.starts (h : IsHex p) : StartsHex p := by
  obtain ⟨hlen, hall⟩ := h
  refine ⟨by omega, fun c hc => hall c ?_⟩
  have htake : (p.1.take 40).take 2 = p.1.take 2 := by
    rw [List.take_take, Nat.min_eq_left (by decide)]
  rw [← htake] at hc
  exact List.mem_of_mem_take hc

section Rows
variable {n : Nat} {ps : List CStr}

theorem collectParents_row (hn : n < maxParent) : collectParents n (p :: ps) =
    if IsHex p then (collectParents (n + 1) ps).map ((getSha1Hex p.1).1 :: ·)
    else .error (.exit 1) := by
  rw [collectParents, if_neg fun h => by omega]
  by_cases hp : IsHex p
  · rw [if_neg (by rw [(getSha1Hex_iff p).2 hp]; decide), if_pos hp]
  · have hbad : (getSha1Hex p.1).2 = false := by
      rw [← getSha1Hex_iff, Bool.not_eq_true] at hp
      exact hp
    rw [if_pos hbad, if_neg hp]

theorem collectParents_last (p : CStr) (ps : List CStr) :
    (StartsHex p → collectParents maxParent (p :: ps) = .error .fault) ∧
      (¬ StartsHex p → collectParents maxParent (p :: ps) = .error (.exit 1)) := by
  rw [collectParents, ← getSha1Hex_stores]
  constructor
  · intro hp
    rw [if_pos ⟨Nat.le_refl _, hp⟩]
  · intro hp
    have hbad : (getSha1Hex p.1).2 = false := by
      rw [← Bool.not_eq_true, getSha1Hex_iff]
      exact fun hex => hp ((getSha1Hex_stores p).2 hex.starts)
    rw [if_neg fun h => hp h.2, if_pos hbad]

/-- A row behind the array is written when all are filled and the next word starts with two digits.
-/
theorem collectParents_fault (hn : n ≤ maxParent) : collectParents n ps = .error .fault ↔
    (∀ i < maxParent - n, ∃ p, ps[i]? = some p ∧ IsHex p) ∧
      ∃ p, ps[maxParent - n]? = some p ∧ StartsHex p := by
  induction ps generalizing n with
  | nil => simp [collectParents]
  | cons q ps ih =>
    rcases Nat.lt_or_eq_of_le hn with hlt | rfl
    · obtain ⟨k, hk⟩ : ∃ k, maxParent - n = k + 1 := ⟨maxParent - n - 1, by omega⟩
      rw [collectParents_row hlt, hk]
      by_cases hq : IsHex q
      · have hmap : (collectParents (n + 1) ps).map ((getSha1Hex q.1).1 :: ·) = .error .fault ↔
            collectParents (n + 1) ps = .error .fault := by
          cases collectParents (n + 1) ps <;> simp [Except.map]
        rw [if_pos hq, hmap, ih (by omega), show maxParent - (n + 1) = k by omega,
          List.getElem?_cons_succ]
        apply and_congr_left
        intro _
        constructor
        · intro h i hi
          cases i with
          | zero => exact ⟨q, rfl, hq⟩
          | succ i => exact h i (by omega)
        · intro h i hi
          exact h (i + 1) (by omega)
      · rw [if_neg hq]
        constructor
        · intro h
          cases h
        · rintro ⟨hall, -⟩
          obtain ⟨p, hp, hex⟩ := hall 0 (by omega)
          cases hp
          exact absurd hex hq
    · rw [Nat.sub_self]
      obtain ⟨hfault, husage⟩ := collectParents_last q ps
      by_cases hq : StartsHex q
      · rw [hfault hq]
        exact iff_of_true rfl ⟨fun i hi => absurd hi (Nat.not_lt_zero i), q, rfl, hq⟩
      · rw [husage hq]
        refine iff_of_false (fun h => by cases h) ?_
        rintro ⟨-, p, hp, hp'⟩
        cases hp
        exact hq hp'

theorem collectParents_ok (hn : n ≤ maxParent) (h : collectParents n ps = .ok rows) :
    n + rows.length ≤ maxParent ∧ rows = decoded ps ∧ ∀ p ∈ ps, IsHex p := by
  induction ps generalizing n rows with
  | nil =>
    cases h
    exact ⟨hn, rfl, fun _ hp => by cases hp⟩
  | cons q ps ih =>
    rcases Nat.lt_or_eq_of_le hn with hlt | rfl
    · rw [collectParents_row hlt] at h
      split at h
      · rename_i hq
        cases hrest : collectParents (n + 1) ps with
        | error e =>
          rw [hrest] at h
          cases h
        | ok rest =>
          rw [hrest] at h
          cases h
          obtain ⟨hlen, hrows, hall⟩ := ih (by omega) hrest
          refine ⟨?_, by rw [hrows]; rfl, List.forall_mem_cons.2 ⟨hq, hall⟩⟩
          rw [List.length_cons]
          omega
      · cases h
    · obtain ⟨hfault, husage⟩ := collectParents_last q ps
      by_cases hq : StartsHex q
      · rw [hfault hq] at h
        cases h
      · rw [husage hq] at h
        cases h

theorem collectParents_stops (h : collectParents n ps = .error e) :
    e = .fault ∨ e = .exit 1 := by
  induction ps generalizing n with
  | nil => cases h
  | cons q ps ih =>
    rw [collectParents] at h
    split at h
    · cases h
      exact .inl rfl
    · split at h
      · cases h
        exact .inr rfl
      · cases hrest : collectParents (n + 1) ps with
        | error e' =>
          rw [hrest] at h
          cases h
          exact ih hrest
        | ok rest =>
          rw [hrest] at h
          cases h

end Rows

/-- No row behind the array is written, and the rows printed are those filled, each by an id. -/
structure ParentsInRange (argv : List CStr) : Prop where
  inside : collectParents 0 (parentArgs (argv.drop 2)) ≠ .error .fault
  refused : maxParent < (parentArgs (argv.drop 2)).length →
    collectParents 0 (parentArgs (argv.drop 2)) = .error (.exit 1)
  filled : ∀ rows, collectParents 0 (parentArgs (argv.drop 2)) = .ok rows →
    rows.length ≤ maxParent ∧ ∀ i row, rows[i]? = some row →
      ∃ p, argv[2 + 2 * i]? = some p ∧ getSha1Hex p.1 = (row, true)

/-- The array is left behind if and only if it has been filled and the word for the next row starts
with two digits. -/
theorem parents_in_range (argv : List CStr) : ParentsInRange argv ↔
    ¬ ((∀ i < maxParent, ∃ p, argv[2 + 2 * i]? = some p ∧ IsHex p) ∧
      ∃ p, argv[2 + 2 * maxParent]? = some p ∧ StartsHex p) := by
  have hplace : ∀ i, (parentArgs (argv.drop 2))[i]? = argv[2 + 2 * i]? := by
    intro i
    rw [parentArgs_getElem?, List.getElem?_drop]
  have hfault : collectParents 0 (parentArgs (argv.drop 2)) = .error .fault ↔ _ :=
    collectParents_fault (Nat.zero_le _)
  simp only [Nat.sub_zero, hplace] at hfault
  rw [← hfault]
  constructor
  · intro h
    exact h.inside
  · intro h
    refine ⟨h, ?_, ?_⟩
    · intro hmany
      cases hc : collectParents 0 (parentArgs (argv.drop 2)) with
      | error e =>
        rcases collectParents_stops hc with rfl | rfl
        · exact absurd hc h
        · rfl
      | ok rows =>
        obtain ⟨hlen, hrows, -⟩ := collectParents_ok (Nat.zero_le _) hc
        rw [hrows, decoded, List.length_map] at hlen
        omega
    · intro rows hc
      obtain ⟨hlen, hrows, hall⟩ := collectParents_ok (Nat.zero_le _) hc
      refine ⟨by omega, ?_⟩
      intro i row hi
      rw [hrows, decoded, List.getElem?_map, Option.map_eq_some_iff] at hi
      obtain ⟨p, hp, rfl⟩ := hi
      refine ⟨p, (hplace i).symm.trans hp, Prod.ext rfl ?_⟩
      exact (getSha1Hex_iff p).2 (hall p (List.mem_of_getElem? hp))

/-- Seventeen parents, with a word that is passed over behind each but the last. -/
theorem parents_overrun : ¬ ∀ argv, ParentsInRange argv := by
  intro hall
  obtain ⟨argv, hargv⟩ : ∃ argv, argv = List.replicate 35
    (cstr "0123456789abcdef0123456789abcdef01234567") := ⟨_, rfl⟩
  have hfault : collectParents 0 (parentArgs (argv.drop 2)) = .error .fault := by
    rw [hargv]
    decide +kernel
  exact (hall argv).inside hfault

end SelfGit
