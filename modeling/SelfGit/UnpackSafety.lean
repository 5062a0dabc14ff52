import SelfGit.TreeRoundTrip

namespace SelfGit
open Foundation
set_option autoImplicit true

/-- A line of a tree that `unpack` gets past. -/
structure TreeLine (line : List Byte) : Prop where
  nul : 0 ∉ line
  blank : 32 ∈ line
  short : line.length + 21 < 2 ^ 31

/-- Payloads that `unpack` can follow: records one behind the other to the end, or up to a line that
is not followed by a whole hash or does not start with a number. -/
inductive Orderly : List Byte → Prop
  | done : Orderly []
  | corrupt {line rest : List Byte} (hl : TreeLine line)
      (h : rest.length < 20 ∨ scanUnsigned 8 line = none) : Orderly (line ++ 0 :: rest)
  | record {line hash rest : List Byte} {m : Nat × List Byte} (hl : TreeLine line)
      (hm : scanUnsigned 8 line = some m) (hs : hash.length = 20) (h : Orderly rest) :
      Orderly (line ++ 0 :: (hash ++ rest))

/-- The printed lines stand for all of the payload, record by record. -/
inductive Covers : List TreeRecord → List Byte → Prop
  | nil : Covers [] []
  | cons {line hash rest : List Byte} {m : Nat × List Byte} (h0 : 0 ∉ line) (hb : 32 ∈ line)
      (hm : scanUnsigned 8 line = some m) (hs : hash.length = 20) (h : Covers rs rest) :
      Covers (⟨UInt32.ofNat m.1, (line.dropWhile (· ≠ 32)).drop 1, hash⟩ :: rs)
        (line ++ 0 :: (hash ++ rest))

/-- The loop prints all of the payload, or leaves through the branch for corrupt files. -/
def Unpacks (payload : List Byte) : Prop :=
  ∃ lines, (unpackLoop payload (payload.length + 1) 0 = (lines, .done) ∧ Covers lines payload) ∨
    unpackLoop payload (payload.length + 1) 0 = (lines, .corrupt)

theorem unpackLoop_corrupt (hl : TreeLine line)
    (h : rest.length < 20 ∨ scanUnsigned 8 line = none) (pre : List Byte) (fuel : Nat) :
    unpackLoop (pre ++ (line ++ 0 :: rest)) (fuel + 1) pre.length = ([], .corrupt) := by
  have hshort := hl.short
  have hlen : (pre ++ (line ++ 0 :: rest)).length = pre.length + line.length + 1 + rest.length := by
    simp only [List.length_append, List.length_cons]
    omega
  have hint : toInt (line.length + 1 : Nat) = line.length + 1 := by
    rw [toInt_of_lt (by omega)]
    omega
  rw [unpackLoop, if_neg (by omega), List.drop_left, strlen_append _ _ hl.nul]
  simp only [List.take_left, hint]
  rw [if_neg (by
    rw [not_or, not_or]
    exact ⟨by omega, by simpa using hl.blank, by omega⟩)]
  rcases h with h | h
  · rw [if_pos (by omega)]
  · rw [h]
    split
    · rfl
    · rfl

theorem Orderly.unpacks (h : Orderly rest) (hf : rest.length < fuel) (pre : List Byte) :
    ∃ lines, (unpackLoop (pre ++ rest) fuel pre.length = (lines, .done) ∧ Covers lines rest) ∨
      unpackLoop (pre ++ rest) fuel pre.length = (lines, .corrupt) := by
  induction h generalizing fuel pre with
  | done =>
    obtain ⟨fuel, rfl⟩ : ∃ k, fuel = k + 1 := ⟨fuel - 1, by simp at hf; omega⟩
    refine ⟨[], .inl ⟨?_, .nil⟩⟩
    rw [unpackLoop, if_pos (by simp)]
  | corrupt hl h =>
    obtain ⟨fuel, rfl⟩ : ∃ k, fuel = k + 1 := ⟨fuel - 1, by omega⟩
    exact ⟨[], .inr (unpackLoop_corrupt hl h pre fuel)⟩
  | @record line hash rest m hl hm hs h ih =>
    obtain ⟨fuel, rfl⟩ : ∃ k, fuel = k + 1 := ⟨fuel - 1, by omega⟩
    have hlen : (line ++ 0 :: (hash ++ rest)).length = line.length + 21 + rest.length := by
      simp only [List.length_append, List.length_cons, hs]
      omega
    have hstep := unpackLoop_step hl.nul hl.blank hl.short hs hm pre rest fuel
    have hpre : (pre ++ line ++ 0 :: hash).length = pre.length + line.length + 21 := by
      simp only [List.length_append, List.length_cons, hs]
    have hsplit : (pre ++ line ++ 0 :: hash) ++ rest = pre ++ (line ++ 0 :: (hash ++ rest)) := by
      simp
    obtain ⟨lines, ⟨hdone, hcov⟩ | hbad⟩ := ih (show rest.length < fuel by omega)
      (pre ++ line ++ 0 :: hash)
    · rw [hsplit, hpre] at hdone
      rw [hdone] at hstep
      exact ⟨_, .inl ⟨hstep, .cons hl.nul hl.blank hm hs hcov⟩⟩
    · rw [hsplit, hpre] at hbad
      rw [hbad] at hstep
      exact ⟨_, .inr hstep⟩

/-- Below 2^32 bytes, every line that is too long for the `int` leads in front of the payload. -/
theorem Orderly.of_unpackLoop (hsmall : payload.length < 2 ^ 32) (hpos : pos ≤ payload.length)
    (h : unpackLoop payload fuel pos = (lines, fin)) (hfin : fin = .done ∨ fin = .corrupt) :
    Orderly (payload.drop pos) := by
  induction fuel generalizing pos lines with
  | zero =>
    cases h
    simp at hfin
  | succ fuel ih =>
    rw [unpackLoop] at h
    split at h
    · rename_i hend
      rw [List.drop_of_length_le hend]
      exact .done
    · rename_i hmore
      cases hn : strlen (payload.drop pos) with
      | none =>
        rw [hn] at h
        cases h
        simp at hfin
      | some n =>
        obtain ⟨t, ht, h0, hlt⟩ := strlen_spec hn
        rw [hn] at h
        simp only at h
        obtain ⟨line, hline⟩ : ∃ line, line = (payload.drop pos).take n := ⟨_, rfl⟩
        rw [← hline] at h ht h0
        rw [List.length_drop] at hlt
        have hll : line.length = n := by
          rw [hline, List.length_take, List.length_drop]
          omega
        have htl : t.length + n + 1 = payload.length - pos := by
          have hlen := congrArg List.length ht
          rw [List.length_drop, List.length_append, List.length_cons] at hlen
          omega
        split at h
        · cases h
          simp at hfin
        · rename_i hok
          rw [not_or, not_or, not_not] at hok
          obtain ⟨hfront, hblank, hover⟩ := hok
          have hint : toInt (n + 1 : Nat) = n + 1 := by
            simp only [toInt, Int.bmod_def] at hfront ⊢
            omega
          rw [hint] at h hover
          have hl : TreeLine line := ⟨h0, hblank, by omega⟩
          split at h
          · rename_i hshort
            rw [ht]
            exact .corrupt hl (.inl (by omega))
          · rename_i hroom
            cases hm : scanUnsigned 8 line with
            | none =>
              rw [ht]
              exact .corrupt hl (.inr hm)
            | some m =>
              rw [hm] at h
              have hnext : ((pos : Int) + (n + 1)).toNat + 20 = pos + n + 21 := by omega
              simp only [hnext, Prod.mk.injEq] at h
              have hrest : Orderly (payload.drop (pos + n + 21)) := ih (by omega) (Prod.ext rfl h.2)
              have hsplit : payload.drop (pos + n + 21) = t.drop 20 := by
                rw [← hll, Nat.add_assoc, ← List.drop_drop, ht, List.drop_length_add_append]
                rfl
              rw [hsplit] at hrest
              rw [ht, ← List.take_append_drop 20 t]
              exact .record hl hm (by rw [List.length_take]; omega) hrest

/-- The loop over any payload that is orderly ends in one of the two ways it should, and below 2^32
bytes only over those. -/
theorem unpack_total (payload : List Byte) : (Orderly payload → Unpacks payload) ∧
    (payload.length < 2 ^ 32 → Unpacks payload → Orderly payload) := by
  constructor
  · intro h
    exact h.unpacks (Nat.lt_succ_self _) []
  · rintro hsmall ⟨lines, ⟨h, -⟩ | h⟩
    · exact Orderly.of_unpackLoop hsmall (Nat.zero_le _) h (.inl rfl)
    · exact Orderly.of_unpackLoop hsmall (Nat.zero_le _) h (.inr rfl)

/-- One record, and a second one whose hash is cut off. -/
theorem unpack_total_cut :
    Unpacks (str "100644 a" ++ 0 :: (List.replicate 20 7 ++ (str "100644 b" ++ [0]))) := by
  refine (unpack_total _).1 (.record (m := (0o100644, str " a")) ⟨?_, ?_, ?_⟩ ?_ ?_ (.corrupt
    ⟨?_, ?_, ?_⟩ (.inl ?_)))
  all_goals decide +kernel

/-- A tree of a single byte, which is not a NUL. -/
theorem unpack_overruns : ¬ ∀ payload, Unpacks payload := by
  intro hall
  have hfault : unpackLoop [120] 2 0 = ([], .fault) := by decide
  obtain ⟨lines, ⟨h, -⟩ | h⟩ := hall [120]
  · cases hfault.symm.trans h
  · cases hfault.symm.trans h

end SelfGit
