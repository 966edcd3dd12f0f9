import Mathlib

/-!
# Packed counters with guard bits

Counters packed into one number, each in a slot with at least one unused bit above it. One
subtraction of two such numbers compares all counters at once: a counter that is too small
borrows, and the borrow shows in its guard bit.

## Main definitions

- `Field`, `word`: counters in their slots
- `GuardsClear`: the guard bit above each counter is clear

## Main results

- `guardsClear_sub_iff`: the guard bits of a difference are clear iff no counter is too small
-/

namespace GuardedFields

/-- A counter of `width` bits in a slot of `slot` bits. -/
structure Field where
  width : Nat
  slot : Nat
  guarded : width < slot

/-- The number of bits of all slots. -/
def size : List Field → Nat
  | [] => 0
  | f :: fs => f.slot + size fs

/-- The number that holds the counts, the first field lowest. -/
def word : List Field → List Nat → Nat
  | f :: fs, x :: xs => x + 2 ^ f.slot * word fs xs
  | _, _ => 0

/-- Every count fits into its field. -/
def Fits (fs : List Field) (xs : List Nat) : Prop := List.Forall₂ (fun f x => x < 2 ^ f.width) fs xs

/-- The guard bit above each field is clear. -/
def GuardsClear : List Field → Nat → Prop
  | [], _ => True
  | f :: fs, d => d / 2 ^ f.width % 2 = 0 ∧ GuardsClear fs (d / 2 ^ f.slot)

theorem Field.two_pow_slot (f : Field) :
    2 ^ f.slot = 2 ^ f.width * (2 * 2 ^ (f.slot - f.width - 1)) := by
  have hf := f.guarded
  rw [← Nat.pow_succ', ← Nat.pow_add]
  congr 1
  omega

theorem Field.lt_slot (f : Field) {x : Nat} (hx : x < 2 ^ f.width) : x < 2 ^ f.slot :=
  hx.trans (Nat.pow_lt_pow_right Nat.one_lt_two f.guarded)

/-- Every word fits into its slots. -/
theorem word_lt {fs : List Field} {xs : List Nat} (h : Fits fs xs) : word fs xs < 2 ^ size fs := by
  induction h with
  | nil => exact Nat.one_pos
  | @cons f x fs xs hx _ ih =>
    have hslot := f.lt_slot hx
    calc x + 2 ^ f.slot * word fs xs < 2 ^ f.slot * (word fs xs + 1) := by rw [Nat.mul_add]; omega
      _ ≤ 2 ^ f.slot * 2 ^ size fs := Nat.mul_le_mul_left _ ih
      _ = 2 ^ (f.slot + size fs) := (Nat.pow_add ..).symm

/-- The part of a number above a slot does not reach the guard bit in the slot. -/
theorem guard_add (f : Field) (d e : Nat) :
    (d + 2 ^ f.slot * e) / 2 ^ f.width % 2 = d / 2 ^ f.width % 2 := by
  rw [f.two_pow_slot, Nat.mul_assoc, Nat.mul_assoc, Nat.add_mul_div_left _ _ (Nat.two_pow_pos _),
    Nat.add_mul_mod_self_left]

/-- The guard bit of a difference that borrows. -/
theorem guard_of_lt (f : Field) {x y : Nat} (hy : y < 2 ^ f.width) (hxy : x < y) :
    (x + 2 ^ f.slot - y) / 2 ^ f.width % 2 = 1 := by
  have hpos : 0 < 2 * 2 ^ (f.slot - f.width - 1) :=
    Nat.mul_pos Nat.two_pos (Nat.two_pow_pos _)
  have hdiv : (x + 2 ^ f.slot - y) / 2 ^ f.width = 2 * 2 ^ (f.slot - f.width - 1) - 1 := by
    rw [f.two_pow_slot]
    generalize 2 * 2 ^ (f.slot - f.width - 1) = e at *
    have he : 2 ^ f.width * e = 2 ^ f.width * (e - 1) + 2 ^ f.width := by
      rw [← Nat.mul_succ]
      congr 1
      omega
    rw [he, show x + (2 ^ f.width * (e - 1) + 2 ^ f.width) - y =
      x + 2 ^ f.width - y + 2 ^ f.width * (e - 1) by omega,
      Nat.add_mul_div_left _ _ (Nat.two_pow_pos _), Nat.div_eq_of_lt (by omega), Nat.zero_add]
  rw [hdiv]
  omega

/-- What a subtraction leaves in the lowest slot and above it, when the lowest slot does not
borrow. -/
theorem sub_of_le {s n x y X Y : Nat} (hx : x < 2 ^ s) (hyx : y ≤ x) (hY : Y < 2 ^ n) :
    (x + 2 ^ s * X + 2 ^ (s + n) - (y + 2 ^ s * Y)) % 2 ^ (s + n) =
      (x - y) + 2 ^ s * ((X + 2 ^ n - Y) % 2 ^ n) := by
  have hsplit : x + 2 ^ s * X + 2 ^ (s + n) - (y + 2 ^ s * Y) =
      (x - y) + 2 ^ s * (X + 2 ^ n - Y) := by
    rw [Nat.pow_add, Nat.mul_sub, Nat.mul_add]
    have := Nat.mul_le_mul_left (2 ^ s) hY.le
    omega
  rw [hsplit, Nat.pow_add, Nat.mod_mul, Nat.add_mul_mod_self_left, Nat.mod_eq_of_lt (by omega),
    Nat.add_mul_div_left _ _ (Nat.two_pow_pos _), Nat.div_eq_of_lt (by omega), Nat.zero_add]

/-- What it leaves in the lowest slot when that borrows. -/
theorem sub_mod_of_lt {s n x y X Y : Nat} (hy : y < 2 ^ s) (hxy : x < y) (hY : Y < 2 ^ n) :
    (x + 2 ^ s * X + 2 ^ (s + n) - (y + 2 ^ s * Y)) % 2 ^ (s + n) % 2 ^ s = x + 2 ^ s - y := by
  have hsplit : x + 2 ^ s * X + 2 ^ (s + n) - (y + 2 ^ s * Y) =
      (x + 2 ^ s - y) + 2 ^ s * (X + 2 ^ n - Y - 1) := by
    have hle := Nat.mul_le_mul_left (2 ^ s) (show Y + 1 ≤ 2 ^ n from hY)
    rw [Nat.pow_add, Nat.mul_sub, Nat.mul_sub, Nat.mul_add]
    rw [Nat.mul_add] at hle
    omega
  rw [Nat.mod_mod_of_dvd _ ⟨2 ^ n, Nat.pow_add ..⟩, hsplit, Nat.add_mul_mod_self_left,
    Nat.mod_eq_of_lt (by omega)]

/-- One subtraction compares all counts: the guard bits of the difference are clear iff no count of
the minuend is the smaller one. -/
theorem guardsClear_sub_iff {fs : List Field} {xs ys : List Nat} (hx : Fits fs xs)
    (hy : Fits fs ys) :
    GuardsClear fs ((word fs xs + 2 ^ size fs - word fs ys) % 2 ^ size fs) ↔
      List.Forall₂ (· ≤ ·) ys xs := by
  induction hx generalizing ys with
  | nil =>
    cases hy
    exact iff_of_true trivial .nil
  | @cons f x fs xs hx _ ih =>
    cases hy with
    | @cons _ y _ ys hy hys =>
      have hY := word_lt hys
      rw [GuardsClear, List.forall₂_cons, word, word, size]
      by_cases hyx : y ≤ x
      · have hlow : (x - y) / 2 ^ f.width % 2 = 0 := by rw [Nat.div_eq_of_lt (by omega)]
        rw [sub_of_le (f.lt_slot hx) hyx hY, guard_add, hlow,
          Nat.add_mul_div_left _ _ (Nat.two_pow_pos _),
          Nat.div_eq_of_lt (lt_of_le_of_lt (Nat.sub_le ..) (f.lt_slot hx)), Nat.zero_add, ih hys]
        exact and_congr_left fun _ => iff_of_true rfl hyx
      · -- the lowest count that is too small borrows into its own guard bit
        refine iff_of_false (fun h => ?_) fun h => hyx h.1
        have hguard := h.1
        rw [← Nat.mod_add_div (_ % 2 ^ (f.slot + size fs)) (2 ^ f.slot), guard_add,
          sub_mod_of_lt (f.lt_slot hy) (by omega) hY, guard_of_lt f hy (by omega)] at hguard
        cases hguard

end GuardedFields
