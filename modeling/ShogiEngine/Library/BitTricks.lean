import Mathlib

/-!
# Bit tricks on machine words

Bitwise readings of the arithmetic that bitboard programs use to find the first set bit of
a word in either direction.

## Main results

- `getLsbD_xor_sub_one`: `x ^ (x - 1)` is the mask up to and including the lowest set bit
- `getLsbD_and_sub_one`: `x & (x - 1)` clears the lowest set bit
- `getLsbD_allOnes_shiftLeft_msb`: shifting ones to the highest set bit of `x | 1`
-/

namespace BitTricks

variable {w : Nat}

/-- Adding the all-ones word carries into bit `i` iff some lower bit is set. -/
theorem carry_allOnes (x : BitVec w) (i : Nat) (hi : i ≤ w) :
    BitVec.carry i x (BitVec.allOnes w) false = decide (∃ j < i, x.getLsbD j = true) := by
  induction i with
  | zero => simp
  | succ i ih =>
    have hiw : i < w := hi
    rw [BitVec.carry_succ, ih (by omega), BitVec.getLsbD_allOnes]
    have hstep : (∃ j < i + 1, x.getLsbD j = true) ↔
        x.getLsbD i = true ∨ ∃ j < i, x.getLsbD j = true := by
      constructor
      · rintro ⟨j, hj, hx⟩
        rcases Nat.lt_succ_iff_lt_or_eq.mp hj with h | rfl
        · exact Or.inr ⟨j, h, hx⟩
        · exact Or.inl hx
      · rintro (h | ⟨j, hj, hx⟩)
        · exact ⟨i, by omega, h⟩
        · exact ⟨j, by omega, hx⟩
    rw [Bool.eq_iff_iff, decide_eq_true_iff, hstep]
    simp only [Bool.atLeastTwo, hiw, decide_true, Bool.and_true, Bool.true_and, Bool.or_eq_true,
      Bool.and_eq_true, decide_eq_true_eq]
    tauto

/-- The bits of `x - 1`: everything up to the lowest set bit is inverted. -/
theorem getLsbD_sub_one (x : BitVec w) (i : Nat) (hi : i < w) :
    (x - 1#w).getLsbD i = (x.getLsbD i ^^ decide (∀ j < i, x.getLsbD j = false)) := by
  have hneg : x - 1#w = x + BitVec.allOnes w := by
    rw [BitVec.sub_eq_add_neg, BitVec.neg_one_eq_allOnes]
  rw [hneg, BitVec.getLsbD_add hi, carry_allOnes x i (by omega), BitVec.getLsbD_allOnes]
  have hnot : decide (∃ j < i, x.getLsbD j = true) =
      !decide (∀ j < i, x.getLsbD j = false) := by
    rw [← decide_not, decide_eq_decide]
    simp
  rw [hnot]
  cases x.getLsbD i <;> cases decide (∀ j < i, x.getLsbD j = false) <;> simp [hi]

/-- `x ^ (x - 1)` is the mask up to and including the lowest set bit, and all ones for 0. -/
theorem getLsbD_xor_sub_one (x : BitVec w) (i : Nat) (hi : i < w) :
    (x ^^^ (x - 1#w)).getLsbD i = decide (∀ j < i, x.getLsbD j = false) := by
  rw [BitVec.getLsbD_xor, getLsbD_sub_one x i hi, ← Bool.xor_assoc, Bool.xor_self,
    Bool.false_xor]

/-- `x & (x - 1)` clears the lowest set bit. -/
theorem getLsbD_and_sub_one (x : BitVec w) (i : Nat) (hi : i < w) :
    (x &&& (x - 1#w)).getLsbD i = (x.getLsbD i && decide (∃ j < i, x.getLsbD j = true)) := by
  rw [BitVec.getLsbD_and, getLsbD_sub_one x i hi]
  have hnot : decide (∃ j < i, x.getLsbD j = true) =
      !decide (∀ j < i, x.getLsbD j = false) := by
    rw [← decide_not, decide_eq_decide]
    simp
  rw [hnot]
  cases x.getLsbD i <;> simp

/-- A bit of a word is the lowest set one iff it is set and no lower bit is. -/
theorem ctz_eq_iff {x : BitVec w} (hx : x ≠ 0#w) {i : Nat} :
    x.ctz.toNat = i ↔ x.getLsbD i = true ∧ ∀ j < i, x.getLsbD j = false := by
  constructor
  · rintro rfl
    exact ⟨BitVec.getLsbD_true_ctz_of_ne_zero hx, fun j hj => BitVec.getLsbD_false_of_lt_ctz hj⟩
  · rintro ⟨hi, hlow⟩
    rcases Nat.lt_trichotomy x.ctz.toNat i with h | h | h
    · exact absurd (BitVec.getLsbD_true_ctz_of_ne_zero hx) (by simp [hlow _ h])
    · exact h
    · exact absurd hi (by simp [BitVec.getLsbD_false_of_lt_ctz h])

theorem exists_getLsbD_of_ne_zero {x : BitVec w} (hx : x ≠ 0#w) : ∃ i < w, x.getLsbD i = true := by
  by_contra h
  push Not at h
  apply hx
  apply BitVec.eq_of_getLsbD_eq
  intro i hi
  simpa using h i hi

/-- The number of the highest set bit, computed from the leading zeros. -/
def msb (x : BitVec w) : Nat := w - 1 - x.clz.toNat

theorem getLsbD_msb {x : BitVec w} (hw : 0 < w) (hx : x ≠ 0#w) : x.getLsbD (msb x) = true :=
  BitVec.getLsbD_true_clz_of_ne_zero hw hx

theorem le_msb {x : BitVec w} {i : Nat} (hi : x.getLsbD i = true) : i ≤ msb x := by
  have hiw : i < w := by
    by_contra h
    rw [BitVec.getLsbD_of_ge x i (by omega)] at hi
    cases hi
  have hlt := BitVec.toNat_lt_two_pow_sub_clz (x := x)
  have hge : 2 ^ i ≤ x.toNat := by
    by_contra h
    rw [BitVec.getLsbD, Nat.testBit_lt_two_pow (by omega)] at hi
    cases hi
  have := (Nat.pow_lt_pow_iff_right (a := 2) (by omega)).mp (lt_of_le_of_lt hge hlt)
  simp only [msb]
  omega

/-- Ones shifted up to the highest set bit of `x | 1` cover the bits with no set bit of `x`
above them. -/
theorem getLsbD_allOnes_shiftLeft_msb (x : BitVec w) {i : Nat} (hi : i < w) :
    (BitVec.allOnes w <<< msb (x ||| 1#w)).getLsbD i = true ↔
      ∀ j, i < j → x.getLsbD j = false := by
  have hw : 0 < w := by omega
  have hone : ∀ j, j ≠ 0 → (1#w).getLsbD j = false := by
    intro j hj
    simp [BitVec.getLsbD_one, hj]
  have hne : x ||| 1#w ≠ 0#w := by
    intro h
    have := congrArg (fun y => BitVec.getLsbD y 0) h
    simp [hw] at this
  rw [BitVec.getLsbD_shiftLeft, BitVec.getLsbD_allOnes]
  simp only [hi, decide_true, Bool.true_and, Bool.and_eq_true, Bool.not_eq_true',
    decide_eq_false_iff_not, decide_eq_true_eq, not_lt]
  constructor
  · rintro ⟨hle, -⟩ j hj
    by_contra hx
    have hx' : (x ||| 1#w).getLsbD j = true := by
      rw [BitVec.getLsbD_or, Bool.or_eq_true]
      exact Or.inl (by simpa using hx)
    have := le_msb hx'
    omega
  · intro h
    refine ⟨?_, by omega⟩
    by_contra hgt
    have hm := getLsbD_msb hw hne
    rw [BitVec.getLsbD_or, hone _ (by omega), Bool.or_false, h _ (by omega)] at hm
    cases hm

/-! ## Two-limb decrements -/

/-- The high limb of the decrement of the two-limb number `hi:lo`. -/
def borrowFrom (hi lo : BitVec w) : BitVec w := hi - (if lo = 0#w then 1#w else 0#w)

/-- The high limb of `n ^ (n - 1)` is empty unless the low limb of `n` is 0. -/
theorem getLsbD_borrowFrom_xor (hi lo : BitVec w) (i : Nat) (hiw : i < w) :
    (borrowFrom hi lo ^^^ hi).getLsbD i =
      decide (lo = 0#w ∧ ∀ j < i, hi.getLsbD j = false) := by
  by_cases h : lo = 0#w
  · rw [borrowFrom, if_pos h, BitVec.xor_comm, getLsbD_xor_sub_one hi i hiw]
    simp [h]
  · simp [borrowFrom, h]

theorem eq_zero_iff_getLsbD {x : BitVec w} : x = 0#w ↔ ∀ i < w, x.getLsbD i = false := by
  constructor
  · rintro rfl i _
    simp
  · intro h
    exact BitVec.eq_of_getLsbD_eq fun i hi => by simpa using h i hi

/-! ## Fields of a word -/

/-- Testing a field in place and after shifting it down. -/
theorem and_shiftLeft_eq_zero_iff {x m : BitVec w} {k : Nat} (hm : (m <<< k) >>> k = m) :
    x &&& (m <<< k) = 0#w ↔ (x >>> k) &&& m = 0#w := by
  have hbit : ∀ i, w ≤ k + i → m.getLsbD i = false := by
    intro i hi
    rw [← hm, BitVec.getLsbD_ushiftRight]
    exact BitVec.getLsbD_of_ge _ _ hi
  rw [eq_zero_iff_getLsbD, eq_zero_iff_getLsbD]
  constructor
  · intro h i hi
    rw [BitVec.getLsbD_and, BitVec.getLsbD_ushiftRight]
    by_cases hk : w ≤ k + i
    · rw [hbit i hk, Bool.and_false]
    · have := h (k + i) (by omega)
      rw [BitVec.getLsbD_and, BitVec.getLsbD_shiftLeft] at this
      simpa [show k + i < w by omega] using this
  · intro h i hi
    rw [BitVec.getLsbD_and, BitVec.getLsbD_shiftLeft]
    by_cases hk : i < k
    · simp [hk]
    · have := h (i - k) (by omega)
      rw [BitVec.getLsbD_and, BitVec.getLsbD_ushiftRight, show k + (i - k) = i by omega] at this
      simpa [hk, hi] using this

theorem pred_div_of_mod_pos {q n : Nat} (hpos : 0 < q % n) : (q - 1) / n = q / n := by
  have hq := Nat.div_add_mod q n
  rcases Nat.eq_zero_or_pos n with rfl | hlt
  · simp
  have hmod := Nat.mod_lt q hlt
  have : q - 1 = n * (q / n) + (q % n - 1) := by omega
  rw [this, Nat.mul_add_div hlt, Nat.div_eq_of_lt (show q % n - 1 < n by omega), Nat.add_zero]

theorem succ_div_of_mod_lt {q n : Nat} (hlt : q % n + 1 < n) : (q + 1) / n = q / n := by
  have hq := Nat.div_add_mod q n
  have : q + 1 = n * (q / n) + (q % n + 1) := by omega
  rw [this, Nat.mul_add_div (by omega), Nat.div_eq_of_lt hlt, Nat.add_zero]

/-- A digit depends only on the word modulo anything above it. -/
theorem digit_congr_mod {x y k j u : Nat} (h : x % 2 ^ k = y % 2 ^ k) (hk : j + u ≤ k) :
    x / 2 ^ j % 2 ^ u = y / 2 ^ j % 2 ^ u := by
  have hdvd : 2 ^ j * 2 ^ u ∣ 2 ^ k := by
    rw [← Nat.pow_add]
    exact Nat.pow_dvd_pow 2 hk
  rw [← Nat.mod_mul_right_div_self, ← Nat.mod_mul_right_div_self, ← Nat.mod_mod_of_dvd x hdvd, h,
    Nat.mod_mod_of_dvd y hdvd]

/-- A digit depends only on the part of the word above anything below it. -/
theorem digit_congr_div {x y k j u : Nat} (h : x / 2 ^ k = y / 2 ^ k) (hk : k ≤ j) :
    x / 2 ^ j % 2 ^ u = y / 2 ^ j % 2 ^ u := by
  obtain ⟨i, rfl⟩ := Nat.exists_eq_add_of_le hk
  rw [Nat.pow_add, ← Nat.div_div_eq_div_mul, h, Nat.div_div_eq_div_mul]

/-- Subtracting one unit of a non-zero digit changes no other digit. -/
theorem digit_sub {x k v j u : Nat} (hpos : 0 < x / 2 ^ k % 2 ^ v)
    (hdisj : k + v ≤ j ∨ j + u ≤ k) : (x - 2 ^ k) / 2 ^ j % 2 ^ u = x / 2 ^ j % 2 ^ u := by
  have hge : 2 ^ k ≤ x := by
    by_contra hlt
    rw [Nat.div_eq_of_lt (by omega)] at hpos
    simp at hpos
  rcases hdisj with h | h
  · refine digit_congr_div (k := k + v) ?_ h
    rw [Nat.pow_add, ← Nat.div_div_eq_div_mul, ← Nat.div_div_eq_div_mul,
      show x - 2 ^ k = x - 2 ^ k * 1 by rw [Nat.mul_one], Nat.sub_mul_div, pred_div_of_mod_pos hpos]
  · refine digit_congr_mod (k := k) ?_ h
    conv_rhs => rw [← Nat.sub_add_cancel hge]
    rw [Nat.add_mod_right]

/-- Adding one unit to a digit with room changes no other digit. -/
theorem digit_add {x k v j u : Nat} (hroom : x / 2 ^ k % 2 ^ v + 1 < 2 ^ v)
    (hdisj : k + v ≤ j ∨ j + u ≤ k) : (x + 2 ^ k) / 2 ^ j % 2 ^ u = x / 2 ^ j % 2 ^ u := by
  rcases hdisj with h | h
  · refine digit_congr_div (k := k + v) ?_ h
    rw [Nat.pow_add, ← Nat.div_div_eq_div_mul, ← Nat.div_div_eq_div_mul,
      Nat.add_div_right _ (Nat.two_pow_pos k), succ_div_of_mod_lt hroom]
  · refine digit_congr_mod (k := k) ?_ h
    rw [Nat.add_mod_right]

theorem digit_sub_self {x k v : Nat} (hpos : 0 < x / 2 ^ k % 2 ^ v) :
    (x - 2 ^ k) / 2 ^ k % 2 ^ v = x / 2 ^ k % 2 ^ v - 1 := by
  have hq := Nat.div_add_mod (x / 2 ^ k) (2 ^ v)
  have hlt := Nat.mod_lt (x / 2 ^ k) (Nat.two_pow_pos v)
  rw [show x - 2 ^ k = x - 2 ^ k * 1 by rw [Nat.mul_one], Nat.sub_mul_div]
  have : x / 2 ^ k - 1 = 2 ^ v * (x / 2 ^ k / 2 ^ v) + (x / 2 ^ k % 2 ^ v - 1) := by omega
  rw [this, Nat.mul_add_mod, Nat.mod_eq_of_lt (by omega)]

theorem digit_add_self {x k v : Nat} (hroom : x / 2 ^ k % 2 ^ v + 1 < 2 ^ v) :
    (x + 2 ^ k) / 2 ^ k % 2 ^ v = x / 2 ^ k % 2 ^ v + 1 := by
  have hq := Nat.div_add_mod (x / 2 ^ k) (2 ^ v)
  rw [Nat.add_div_right _ (Nat.two_pow_pos k)]
  have : x / 2 ^ k + 1 = 2 ^ v * (x / 2 ^ k / 2 ^ v) + (x / 2 ^ k % 2 ^ v + 1) := by omega
  rw [this, Nat.mul_add_mod, Nat.mod_eq_of_lt hroom]

/-! ## Byte order -/

/-- The bytes of a word in reverse order. -/
def byteSwap (x : BitVec 64) : BitVec 64 :=
  x.extractLsb' 0 8 ++ x.extractLsb' 8 8 ++ x.extractLsb' 16 8 ++ x.extractLsb' 24 8 ++
    x.extractLsb' 32 8 ++ x.extractLsb' 40 8 ++ x.extractLsb' 48 8 ++ x.extractLsb' 56 8

theorem getLsbD_byteSwap (x : BitVec 64) {i : Nat} (hi : i < 64) :
    (byteSwap x).getLsbD i = x.getLsbD (56 - 8 * (i / 8) + i % 8) := by
  have hbyte : ∀ j n, (x.extractLsb' j 8).getLsbD n = (decide (n < 8) && x.getLsbD (j + n)) :=
    fun j n => BitVec.getLsbD_extractLsb' j 8 x n
  have hget : ∀ n k, n < 8 → k + n = 56 - 8 * (i / 8) + i % 8 →
      (decide (n < 8) && x.getLsbD (k + n)) = x.getLsbD (56 - 8 * (i / 8) + i % 8) := by
    intro n k hn hk
    rw [hk]
    simp [hn]
  simp only [byteSwap, BitVec.getLsbD_append, hbyte]
  split_ifs <;> exact hget _ _ (by omega) (by omega)

end BitTricks
