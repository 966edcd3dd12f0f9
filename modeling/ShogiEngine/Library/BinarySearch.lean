import Mathlib

/-!
# Binary search

A search for a key in a sorted table that is read on demand. Reading may fail.

## Main definitions

- `BinarySearch.bisect`: the loop over the bounds of the interval
- `BinarySearch.visited`: the entries that it reads

## Main results

- `BinarySearch.length_visited_le`, `BinarySearch.bisect_add`: the loop ends, whatever it reads

- `BinarySearch.bisect_of_mem`: a key of the table is found at its place
- `BinarySearch.bisect_of_not_mem`: any other key is not found
-/

namespace BinarySearch

/-- The loop: `side i` says on which side of entry `i` the key is, unless the entry cannot be read. -/
def bisect (side : Nat → Option Ordering) : Nat → Nat → Nat → Option Nat
  | 0, _, _ => none
  | fuel + 1, left, right =>
    if left < right then
      let middle := left + (right - left) / 2
      (side middle).bind fun o =>
        if o = .lt then bisect side fuel left middle
        else if o = .gt then bisect side fuel (middle + 1) right
        else some middle
    else none

/-- The entries that the loop reads, in order. -/
def visited (side : Nat → Option Ordering) : Nat → Nat → Nat → List Nat
  | 0, _, _ => []
  | fuel + 1, left, right =>
    if left < right then
      let middle := left + (right - left) / 2
      middle :: (side middle).elim [] fun o =>
        if o = .lt then visited side fuel left middle
        else if o = .gt then visited side fuel (middle + 1) right
        else []
    else []

section Table

variable {side : Nat → Option Ordering} {fuel left right i : Nat}

theorem mem_visited (h : i ∈ visited side fuel left right) : left ≤ i ∧ i < right := by
  induction fuel generalizing left right with
  | zero => cases h
  | succ fuel ih =>
    rw [visited] at h
    split at h
    next hlt =>
      rcases List.mem_cons.mp h with rfl | h
      · omega
      · cases hside : side (left + (right - left) / 2) with
        | none =>
          rw [hside] at h
          cases h
        | some o =>
          rw [hside, Option.elim_some] at h
          split at h
          · have := ih h
            omega
          · split at h
            · have := ih h
              omega
            · cases h
    next => cases h

/-- Each pass makes the interval smaller. -/
theorem length_visited_le : (visited side fuel left right).length ≤ right - left := by
  induction fuel generalizing left right with
  | zero => exact Nat.zero_le _
  | succ fuel ih =>
    rw [visited]
    split
    next hlt =>
      rw [List.length_cons]
      cases hside : side (left + (right - left) / 2) with
      | none =>
        rw [Option.elim_none, List.length_nil]
        omega
      | some o =>
        rw [Option.elim_some]
        split
        · have hle := @ih left (left + (right - left) / 2)
          omega
        · split
          · have hle := @ih (left + (right - left) / 2 + 1) right
            omega
          · rw [List.length_nil]
            omega
    next => exact Nat.zero_le _

/-- More passes than the interval has entries change nothing. -/
theorem bisect_add (hfuel : right - left < fuel) (k : Nat) :
    bisect side (fuel + k) left right = bisect side fuel left right := by
  induction fuel generalizing left right with
  | zero => exact absurd hfuel (Nat.not_lt_zero _)
  | succ fuel ih =>
    rw [Nat.succ_add, bisect, bisect]
    split
    next hlt =>
      refine congrArg (Option.bind _) (funext fun o => ?_)
      rw [ih (by omega), ih (by omega)]
    next => rfl

/-- What is found is on neither side of the key. -/
theorem side_of_bisect (h : bisect side fuel left right = some i) : side i = some .eq := by
  induction fuel generalizing left right with
  | zero => cases h
  | succ fuel ih =>
    rw [bisect] at h
    split at h
    next =>
      obtain ⟨o, ho, h⟩ := Option.bind_eq_some_iff.mp h
      split at h
      · exact ih h
      · split at h
        · exact ih h
        · cases h
          cases o <;> first | exact ho | contradiction
    next => cases h

end Table

variable {κ : Type} [LinearOrder κ] {side : Nat → Option Ordering} {key : Nat → κ} {target : κ}
  {n fuel left right i : Nat}

/-- One pass. -/
theorem bisect_succ (hside : ∀ i < n, side i = some (compare target (key i))) (hlt : left < right)
    (hright : right ≤ n) :
    bisect side (fuel + 1) left right =
      if target < key (left + (right - left) / 2) then bisect side fuel left (left + (right - left) / 2)
      else if key (left + (right - left) / 2) < target then
        bisect side fuel (left + (right - left) / 2 + 1) right
      else some (left + (right - left) / 2) := by
  rw [bisect, if_pos hlt]
  simp only [hside (left + (right - left) / 2) (by omega), Option.bind_some, compare_lt_iff_lt,
    compare_gt_iff_gt]

/-- A key of a sorted table is found. -/
theorem bisect_of_mem (hside : ∀ i < n, side i = some (compare target (key i)))
    (hsorted : ∀ i j, i < j → j < n → key i < key j) (hfuel : right - left < fuel) (hright : right ≤ n)
    (hkey : key i = target) (hleft : left ≤ i) (hi : i < right) :
    bisect side fuel left right = some i := by
  induction fuel generalizing left right with
  | zero => exact absurd hfuel (Nat.not_lt_zero _)
  | succ fuel ih =>
    have hlt : left < right := lt_of_le_of_lt hleft hi
    rw [bisect_succ hside hlt hright, ← hkey]
    rcases lt_trichotomy i (left + (right - left) / 2) with h | h | h
    · rw [if_pos (hsorted _ _ h (by omega))]
      exact ih (by omega) (by omega) hleft h
    · rw [← h, if_neg (lt_irrefl _), if_neg (lt_irrefl _)]
    · have hk := hsorted _ _ h (by omega)
      rw [if_neg (lt_asymm hk), if_pos hk]
      exact ih (by omega) hright (by omega) hi

/-- No other key is found. -/
theorem bisect_of_not_mem (hside : ∀ i < n, side i = some (compare target (key i)))
    (hno : ∀ i < n, key i ≠ target) (hright : right ≤ n) : bisect side fuel left right = none := by
  induction fuel generalizing left right with
  | zero => rfl
  | succ fuel ih =>
    by_cases hlt : left < right
    · rw [bisect_succ hside hlt hright]
      rcases lt_trichotomy target (key (left + (right - left) / 2)) with h | h | h
      · rw [if_pos h]
        exact ih (by omega)
      · exact absurd h.symm (hno _ (by omega))
      · rw [if_neg (lt_asymm h), if_pos h]
        exact ih hright
    · rw [bisect, if_neg hlt]

end BinarySearch
