import SelfGit.StoredZlib
import SelfGit.UpdateCache

namespace SelfGit
open Foundation
set_option autoImplicit true

/-- The loop of `verify_path` over memory. Going on past the memory is undefined. -/
def verifyPathAt : Bool → List Byte → Option Bool
  | _, [] => none
  | true, c :: mem => if c ≠ 47 ∧ c ≠ 46 ∧ c ≠ 0 then verifyPathAt false mem else some false
  | false, c :: mem =>
    if c = 0 then some true
    else if c = 47 then verifyPathAt true mem
    else verifyPathAt false mem

/-- `verify_path` of `update-cache.c`, from where its argument points. -/
def UpdateCache.verifyPath (path : List Byte) : Option Bool := verifyPathAt true path

/-- `verify_path` of `status.c`, which is the same text. -/
def Status.verifyPath (path : List Byte) : Option Bool := verifyPathAt true path

/-- Up to the NUL the memory is the string, and what is behind it is not looked at. -/
theorem verifyPathAt_eq (inside : Bool) (s mem : List Byte) (h : 0 ∉ s) :
    verifyPathAt inside (s ++ 0 :: mem) = some (verifyPathLoop inside s) := by
  induction s generalizing inside with
  | nil => cases inside <;> rfl
  | cons c s ih =>
    rw [List.mem_cons, not_or] at h
    cases inside with
    | true =>
      rw [List.cons_append, verifyPathAt, verifyPathLoop]
      split
      · exact ih false h.2
      · rfl
    | false =>
      rw [List.cons_append, verifyPathAt, verifyPathLoop]
      split
      · rfl
      · split
        · exact ih true h.2
        · exact ih false h.2

/-- A part of a path between slashes: not empty and not hidden. -/
structure PathComponent (c : List Byte) : Prop where
  ne : c ≠ []
  visible : c.head? ≠ some 46
  slash : 47 ∉ c

/-- One or more components, with single slashes between them. -/
def PathGrammar (s : List Byte) : Prop :=
  ∃ cs : List (List Byte), cs ≠ [] ∧ (∀ c ∈ cs, PathComponent c) ∧ s = [47].intercalate cs

/-- The rest of a path from within a component. -/
def PathTail (s : List Byte) : Prop :=
  ∃ c, 47 ∉ c ∧ (s = c ∨ ∃ t, PathGrammar t ∧ s = c ++ 47 :: t)

theorem intercalate_cons_cons (c d : List Byte) (cs : List (List Byte)) :
    [47].intercalate (c :: d :: cs) = c ++ 47 :: [47].intercalate (d :: cs) := by
  simp [List.intercalate]

theorem PathComponent.cons_iff {b : Byte} :
    PathComponent (b :: c) ↔ b ≠ 46 ∧ b ≠ 47 ∧ 47 ∉ c := by
  constructor
  · intro h
    have hv := h.visible
    have hs := h.slash
    rw [List.mem_cons, not_or] at hs
    exact ⟨by simpa using hv, Ne.symm hs.1, hs.2⟩
  · rintro ⟨hv, hs, hc⟩
    refine ⟨by simp, by simpa using hv, ?_⟩
    rw [List.mem_cons, not_or]
    exact ⟨Ne.symm hs, hc⟩

theorem pathGrammar_nil : ¬ PathGrammar [] := by
  rintro ⟨cs, hne, hall, hs⟩
  cases cs with
  | nil => exact hne rfl
  | cons c cs =>
    have hc := (hall c List.mem_cons_self).ne
    cases cs with
    | nil => exact hc (by simpa [List.intercalate] using hs.symm)
    | cons d cs =>
      rw [intercalate_cons_cons] at hs
      simp at hs

theorem pathGrammar_cons {b : Byte} :
    PathGrammar (b :: s) ↔ (b ≠ 46 ∧ b ≠ 47) ∧ PathTail s := by
  constructor
  · rintro ⟨cs, hne, hall, hs⟩
    cases cs with
    | nil => exact absurd rfl hne
    | cons c cs =>
      have hc := hall c List.mem_cons_self
      obtain ⟨b', c, rfl⟩ := List.exists_cons_of_ne_nil hc.ne
      obtain ⟨hdot, hslash, hrest⟩ := PathComponent.cons_iff.1 hc
      cases cs with
      | nil =>
        have hs : b = b' ∧ s = c := by simpa [List.intercalate] using hs
        exact ⟨hs.1 ▸ ⟨hdot, hslash⟩, c, hrest, .inl hs.2⟩
      | cons d cs =>
        rw [intercalate_cons_cons, List.cons_append, List.cons.injEq] at hs
        refine ⟨hs.1 ▸ ⟨hdot, hslash⟩, c, hrest, .inr ⟨_, ?_, hs.2⟩⟩
        exact ⟨d :: cs, by simp, fun e he => hall e (List.mem_cons_of_mem _ he), rfl⟩
  · rintro ⟨⟨hdot, hslash⟩, c, hc, rfl | ⟨t, ⟨cs, hne, hall, rfl⟩, rfl⟩⟩
    · refine ⟨[b :: s], by simp, ?_, by simp [List.intercalate]⟩
      intro e he
      rw [List.mem_singleton.1 he]
      exact PathComponent.cons_iff.2 ⟨hdot, hslash, hc⟩
    · obtain ⟨d, cs, rfl⟩ := List.exists_cons_of_ne_nil hne
      refine ⟨(b :: c) :: d :: cs, by simp, ?_, by rw [intercalate_cons_cons, List.cons_append]⟩
      intro e he
      rcases List.mem_cons.1 he with rfl | he
      · exact PathComponent.cons_iff.2 ⟨hdot, hslash, hc⟩
      · exact hall e he

theorem pathTail_nil : PathTail [] := ⟨[], by simp, .inl rfl⟩

theorem pathTail_slash : PathTail (47 :: s) ↔ PathGrammar s := by
  constructor
  · rintro ⟨c, hc, h⟩
    cases c with
    | nil =>
      rcases h with h | ⟨t, ht, h⟩
      · cases h
      · rw [List.nil_append, List.cons.injEq] at h
        rw [h.2]
        exact ht
    | cons d c =>
      rw [List.mem_cons, not_or] at hc
      rcases h with h | ⟨t, ht, h⟩
      · exact absurd (List.cons.inj h).1 hc.1
      · rw [List.cons_append, List.cons.injEq] at h
        exact absurd h.1 hc.1
  · intro h
    exact ⟨[], by simp, .inr ⟨s, h, rfl⟩⟩

theorem pathTail_cons {b : Byte} (hb : b ≠ 47) : PathTail (b :: s) ↔ PathTail s := by
  constructor
  · rintro ⟨c, hc, h⟩
    cases c with
    | nil =>
      rcases h with h | ⟨t, ht, h⟩
      · cases h
      · rw [List.nil_append, List.cons.injEq] at h
        exact absurd h.1 hb
    | cons d c =>
      rw [List.mem_cons, not_or] at hc
      rcases h with h | ⟨t, ht, h⟩
      · exact ⟨c, hc.2, .inl (List.cons.inj h).2⟩
      · rw [List.cons_append, List.cons.injEq] at h
        exact ⟨c, hc.2, .inr ⟨t, ht, h.2⟩⟩
  · rintro ⟨c, hc, h⟩
    have hbc : 47 ∉ b :: c := by
      rw [List.mem_cons, not_or]
      exact ⟨Ne.symm hb, hc⟩
    rcases h with rfl | ⟨t, ht, rfl⟩
    · exact ⟨b :: s, hbc, .inl rfl⟩
    · exact ⟨b :: c, hbc, .inr ⟨t, ht, rfl⟩⟩

/-- The flag of the loop tells whether a path or only the rest of one is still to come. -/
theorem verifyPathLoop_iff (inside : Bool) (s : List Byte) (h : 0 ∉ s) :
    verifyPathLoop inside s = true ↔ if inside then PathGrammar s else PathTail s := by
  induction s generalizing inside with
  | nil =>
    cases inside with
    | true => simpa [verifyPathLoop] using pathGrammar_nil
    | false => simpa [verifyPathLoop] using pathTail_nil
  | cons c s ih =>
    rw [List.mem_cons, not_or] at h
    have hc := Ne.symm h.1
    cases inside with
    | true =>
      have hrest := ih false h.2
      simp only [Bool.false_eq_true, ↓reduceIte] at hrest
      rw [verifyPathLoop, if_pos rfl, pathGrammar_cons]
      by_cases hok : c ≠ 47 ∧ c ≠ 46
      · rw [if_pos ⟨hok.1, hok.2, hc⟩, hrest]
        exact ⟨fun ht => ⟨⟨hok.2, hok.1⟩, ht⟩, fun ht => ht.2⟩
      · rw [if_neg fun ht => hok ⟨ht.1, ht.2.1⟩]
        simp only [Bool.false_eq_true, false_iff]
        intro ht
        exact hok ⟨ht.1.2, ht.1.1⟩
    | false =>
      rw [verifyPathLoop, if_neg hc]
      simp only [Bool.false_eq_true, ↓reduceIte]
      by_cases hslash : c = 47
      · subst hslash
        have hrest := ih true h.2
        rw [if_pos rfl] at hrest
        rw [if_pos rfl, hrest, pathTail_slash]
      · have hrest := ih false h.2
        rw [if_neg (by decide)] at hrest
        rw [if_neg hslash, hrest, pathTail_cons hslash]

theorem PathGrammar.parts (h : PathGrammar s) : ∀ c ∈ s.splitOn 47, PathComponent c := by
  obtain ⟨cs, hne, hall, rfl⟩ := h
  rw [List.splitOn_intercalate 47 (fun c hc => (hall c hc).slash) hne]
  exact hall

theorem PathGrammar.no_leading (h : PathGrammar s) : s.head? ≠ some 47 := by
  cases s with
  | nil => simp
  | cons b s =>
    have hb := (pathGrammar_cons.1 h).1.2
    simpa using hb

theorem PathGrammar.no_trailing (h : PathGrammar s) : s.getLast? ≠ some 47 := by
  intro hlast
  obtain ⟨t, rfl⟩ := List.getLast?_eq_some_iff.1 hlast
  -- behind the last slash there would be an empty component
  have hparts := h.parts []
  rw [List.splitOn_append_cons_self] at hparts
  exact (hparts (by simp)).ne rfl

/-- Both copies of `verify_path` end at the NUL at the latest, and they accept exactly the paths of
visible components. -/
theorem verify_path_grammar (path : CStr) :
    (∃ r, UpdateCache.verifyPath (path.1 ++ [0]) = some r ∧
      Status.verifyPath (path.1 ++ [0]) = some r ∧ verifyPath path = r ∧
      (r = true ↔ PathGrammar path.1)) ∧
    (verifyPath path = true →
      (∀ c ∈ path.1.splitOn 47, c ≠ [] ∧ c ≠ str "." ∧ c ≠ str "..") ∧
      path.1.head? ≠ some 47 ∧ path.1.getLast? ≠ some 47) := by
  have hat := verifyPathAt_eq true path.1 [] path.2
  have hiff := verifyPathLoop_iff true path.1 path.2
  rw [if_pos rfl] at hiff
  refine ⟨⟨verifyPath path, hat, hat, rfl, hiff⟩, ?_⟩
  intro hok
  have hg := hiff.1 hok
  refine ⟨?_, hg.no_leading, hg.no_trailing⟩
  intro c hc
  have hcomp := hg.parts c hc
  refine ⟨hcomp.ne, ?_, ?_⟩
  · rintro rfl
    exact hcomp.visible (by decide)
  · rintro rfl
    exact hcomp.visible (by decide)

example : verifyPath (cstr "src/cache.h") = true := by decide

end SelfGit
