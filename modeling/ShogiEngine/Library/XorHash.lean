import Mathlib

/-!
# Incremental exclusive-or hashes

A hash that is the exclusive or of one key for each index, and how it follows a change of the
keyed function at one index.

## Main definitions

- `XorHash.fold`: the hash from scratch

## Main results

- `XorHash.fold_update`: the incremental update
-/

namespace XorHash

variable {α : Type*} {w : Nat}

/-- The exclusive or of `key a` over the list, in the order of a loop. -/
def fold (key : α → BitVec w) (l : List α) : BitVec w := l.foldl (fun h a => h ^^^ key a) 0#w

variable {key : α → BitVec w} {l : List α}

theorem foldl_eq (z : BitVec w) : l.foldl (fun h a => h ^^^ key a) z = z ^^^ fold key l := by
  induction l generalizing z with
  | nil => exact BitVec.xor_zero.symm
  | cons a l ih => rw [fold, List.foldl_cons, List.foldl_cons, ih, ih, BitVec.zero_xor,
      BitVec.xor_assoc]

theorem fold_cons (a : α) : fold key (a :: l) = key a ^^^ fold key l := by
  rw [fold, List.foldl_cons, foldl_eq, BitVec.zero_xor]

theorem fold_congr {key' : α → BitVec w} (h : ∀ a ∈ l, key a = key' a) :
    fold key l = fold key' l := by
  induction l with
  | nil => rfl
  | cons a l ih =>
    rw [fold_cons, fold_cons, h a List.mem_cons_self, ih fun x hx => h x (List.mem_cons_of_mem _ hx)]

/-- Changing one key exchanges it in the hash. -/
theorem fold_update [DecidableEq α] {a : α} (hnodup : l.Nodup) (ha : a ∈ l) (v : BitVec w) :
    fold (Function.update key a v) l = fold key l ^^^ key a ^^^ v := by
  induction l with
  | nil => cases ha
  | cons b l ih =>
    obtain ⟨hb, hl⟩ := List.nodup_cons.mp hnodup
    rw [fold_cons, fold_cons]
    by_cases hab : a = b
    · subst hab
      have hrest : fold (Function.update key a v) l = fold key l := by
        refine fold_congr fun x hx => ?_
        have hxa : x ≠ a := by
          rintro rfl
          exact hb hx
        rw [Function.update_of_ne hxa]
      rw [Function.update_self, hrest, BitVec.xor_comm (key a), BitVec.xor_assoc (fold key l),
        BitVec.xor_self, BitVec.xor_zero, BitVec.xor_comm]
    · have ha' : a ∈ l := (List.mem_cons.mp ha).resolve_left hab
      rw [Function.update_of_ne (Ne.symm hab), ih hl ha', BitVec.xor_assoc, BitVec.xor_assoc,
        BitVec.xor_assoc]

end XorHash
