import Mathlib

namespace Foundation
set_option autoImplicit true

/-- The slots from `dst` on become the `n` slots from `src` on, all inside the array. -/
def memmove (xs : List α) (dst src n : Nat) : Option (List α) :=
  if dst + n ≤ xs.length ∧ src + n ≤ xs.length then
    some (xs.take dst ++ (xs.drop src).take n ++ xs.drop (dst + n))
  else none

def store (xs : List α) (i : Nat) (a : α) : Option (List α) :=
  if i < xs.length then some (xs.set i a) else none

theorem memmove_some {xs ys : List α} (h : memmove xs dst src n = some ys) :
    dst + n ≤ xs.length ∧ src + n ≤ xs.length ∧
      ys = xs.take dst ++ (xs.drop src).take n ++ xs.drop (dst + n) := by
  rw [memmove] at h
  split at h
  · rename_i hb
    exact ⟨hb.1, hb.2, (Option.some.inj h).symm⟩
  · cases h

theorem store_some {xs ys : List α} (h : store xs i a = some ys) :
    i < xs.length ∧ ys = xs.set i a := by
  rw [store] at h
  split at h
  · rename_i hi
    exact ⟨hi, (Option.some.inj h).symm⟩
  · cases h

theorem memmove_length {xs ys : List α} (h : memmove xs dst src n = some ys) :
    ys.length = xs.length := by
  obtain ⟨hd, hs, rfl⟩ := memmove_some h
  simp only [List.length_append, List.length_take, List.length_drop]
  omega

theorem store_length {xs ys : List α} (h : store xs i a = some ys) : ys.length = xs.length := by
  obtain ⟨_, rfl⟩ := store_some h
  exact List.length_set

theorem memmove_getElem? {xs ys : List α} (h : memmove xs dst src n = some ys) (j : Nat) :
    ys[j]? = if dst ≤ j ∧ j < dst + n then xs[src + (j - dst)]? else xs[j]? := by
  obtain ⟨hd, hs, rfl⟩ := memmove_some h
  have hl : (xs.take dst).length = dst := by
    rw [List.length_take]
    omega
  have hm : ((xs.drop src).take n).length = n := by
    rw [List.length_take, List.length_drop]
    omega
  rw [List.append_assoc, List.getElem?_append, hl]
  by_cases h1 : j < dst
  · rw [if_pos h1, if_neg (by omega), List.getElem?_take_of_lt h1]
  · rw [if_neg h1, List.getElem?_append, hm]
    by_cases h2 : j - dst < n
    · rw [if_pos h2, if_pos (by omega), List.getElem?_take_of_lt h2, List.getElem?_drop]
    · rw [if_neg h2, if_neg (by omega), List.getElem?_drop]
      congr 1
      omega

theorem store_append (as bs : List α) (x a : α) :
    store (as ++ x :: bs) as.length a = some (as ++ a :: bs) := by
  rw [store, if_pos (by simp)]
  simp only [List.set_append, Nat.lt_irrefl, ↓reduceIte, Nat.sub_self, List.set_cons_zero]

theorem memmove_store_insert {as bs ts ys zs : List α}
    (hy : memmove (as ++ bs ++ ts) (as.length + 1) as.length bs.length = some ys)
    (hz : store ys as.length a = some zs) : ∃ x, ts = x :: ts.tail ∧
      zs = as ++ a :: bs ++ ts.tail := by
  obtain ⟨hd, -, rfl⟩ := memmove_some hy
  obtain ⟨-, rfl⟩ := store_some hz
  cases ts with
  | nil =>
    simp only [List.append_nil, List.length_append] at hd
    omega
  | cons x ts =>
    refine ⟨x, rfl, ?_⟩
    have hm : ((as ++ bs ++ x :: ts).drop as.length).take bs.length = bs := by
      rw [List.append_assoc, List.drop_left, List.take_left]
    have ht : (as ++ bs ++ x :: ts).drop (as.length + 1 + bs.length) = ts := by
      rw [show as.length + 1 + bs.length = (as ++ bs).length + 1 by simp; omega,
        List.drop_append, List.drop_eq_nil_of_le (by omega)]
      simp
    obtain ⟨y, rest, hyr⟩ : ∃ y rest, bs ++ x :: ts = y :: rest :=
      List.exists_cons_of_ne_nil (by simp)
    have hp : (as ++ bs ++ x :: ts).take (as.length + 1) = as ++ [y] := by
      rw [List.append_assoc, hyr, List.take_append, List.take_of_length_le (by omega)]
      simp
    rw [hm, ht, hp]
    simp only [List.append_assoc, List.set_append, Nat.lt_irrefl, ↓reduceIte, Nat.sub_self,
      List.cons_append, List.nil_append, List.set_cons_zero, List.tail_cons]

end Foundation
