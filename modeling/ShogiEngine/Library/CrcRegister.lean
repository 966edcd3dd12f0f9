import ShogiEngine.Library.LittleEndian

/-!
# Checksums by a shift register

A cyclic redundancy check in its reflected form: the low bit leaves a register and, if it was set,
the polynomial is added to what remains. The register is linear, so that several bits can be divided
at once: by a table of the remainders of all bytes, or in a wider register that takes a word.

## Main definitions

- `CrcRegister.step`, `CrcRegister.steps`: dividing by one bit and by several
- `CrcRegister.byteStep`: taking one byte

## Main results

- `CrcRegister.byteStep_eq_table`: a byte at a time by a table
- `CrcRegister.steps_leWord`: several bytes at a time in a wider register
- `CrcRegister.foldl_byteStep_set_ne`: a change of a single byte is seen
-/

namespace CrcRegister

open LittleEndian

/-- The low bit leaves the register; if it was set, `poly` is added. -/
def step {w : Nat} (poly c : BitVec w) : BitVec w :=
  if c.getLsbD 0 then poly ^^^ (c >>> 1) else c >>> 1

def steps {w : Nat} (poly : BitVec w) : Nat → BitVec w → BitVec w
  | 0, c => c
  | n + 1, c => steps poly n (step poly c)

/-- The register after a byte. -/
def byteStep {w : Nat} (poly c : BitVec w) (b : BitVec 8) : BitVec w :=
  steps poly 8 (c ^^^ b.setWidth w)

variable {w v : Nat} {poly : BitVec w}

/-! ## Linearity -/

theorem step_xor (a b : BitVec w) : step poly (a ^^^ b) = step poly a ^^^ step poly b := by
  simp only [step, BitVec.getLsbD_xor, BitVec.ushiftRight_xor_distrib]
  apply BitVec.eq_of_getLsbD_eq
  intro i _
  cases a.getLsbD 0 <;> cases b.getLsbD 0
  all_goals simp only [Bool.xor_false, Bool.xor_true, Bool.not_true, Bool.not_false,
    if_true, Bool.false_eq_true, if_false, BitVec.getLsbD_xor]
  all_goals cases poly.getLsbD i <;> simp

theorem steps_xor (n : Nat) (a b : BitVec w) :
    steps poly n (a ^^^ b) = steps poly n a ^^^ steps poly n b := by
  induction n generalizing a b with
  | zero => rfl
  | succ n ih => rw [steps, step_xor, ih, steps, steps]

theorem steps_add (m n : Nat) (c : BitVec w) :
    steps poly (m + n) c = steps poly n (steps poly m c) := by
  induction m generalizing c with
  | zero => rw [Nat.zero_add, steps]
  | succ m ih => rw [Nat.succ_add, steps, ih, steps]

/-- Where the low bits are clear, the register is only shifted. -/
theorem steps_of_clear {n : Nat} {c : BitVec w} (h : ∀ i < n, c.getLsbD i = false) :
    steps poly n c = c >>> n := by
  induction n generalizing c with
  | zero => rw [steps, BitVec.ushiftRight_zero]
  | succ n ih =>
    have hstep : step poly c = c >>> 1 := by
      rw [step, h 0 (Nat.succ_pos n), if_neg Bool.false_ne_true]
    rw [steps, hstep, ih, ← BitVec.shiftRight_add, Nat.add_comm]
    intro i hi
    rw [BitVec.getLsbD_ushiftRight]
    exact h _ (by omega)

/-! ## By a table -/

/-- The remainder of the low byte comes from a table; the rest of the register is shifted. -/
theorem byteStep_eq_table {c : BitVec w} {b : BitVec 8} :
    byteStep poly c b =
      steps poly 8 ((c ^^^ b.setWidth w) &&& 255#w) ^^^ (c >>> 8) := by
  have h255 : ∀ i, (255#w).getLsbD i = (decide (i < w) && decide (i < 8)) := by
    intro i
    rw [BitVec.getLsbD_ofNat, show (255 : Nat) = 2 ^ 8 - 1 from rfl, Nat.testBit_two_pow_sub_one]
  have hsplit : c ^^^ b.setWidth w =
      ((c ^^^ b.setWidth w) &&& 255#w) ^^^ ((c ^^^ b.setWidth w) &&& ~~~255#w) := by
    apply BitVec.eq_of_getLsbD_eq
    intro i hi
    simp only [BitVec.getLsbD_xor, BitVec.getLsbD_and, BitVec.getLsbD_not, hi, decide_true,
      Bool.true_and]
    cases (255#w).getLsbD i <;> simp
  have hhigh : ((c ^^^ b.setWidth w) &&& ~~~255#w) >>> 8 = c >>> 8 := by
    apply BitVec.eq_of_getLsbD_eq
    intro i hi
    simp only [BitVec.getLsbD_ushiftRight, BitVec.getLsbD_and, BitVec.getLsbD_xor,
      BitVec.getLsbD_not, BitVec.getLsbD_setWidth, h255]
    by_cases hw : 8 + i < w
    · simp [hw]
    · simp [BitVec.getLsbD_of_ge c (8 + i) (by omega), hw]
  calc byteStep poly c b
      = steps poly 8 (((c ^^^ b.setWidth w) &&& 255#w) ^^^
          ((c ^^^ b.setWidth w) &&& ~~~255#w)) := by rw [byteStep, ← hsplit]
    _ = steps poly 8 ((c ^^^ b.setWidth w) &&& 255#w) ^^^
          (((c ^^^ b.setWidth w) &&& ~~~255#w) >>> 8) := by
        rw [steps_xor, @steps_of_clear w poly 8 ((c ^^^ b.setWidth w) &&& ~~~255#w)]
        intro i hi
        rw [BitVec.getLsbD_and, BitVec.getLsbD_not, h255]
        by_cases hw : i < w
        · simp [hi, hw]
        · simp [hw]
    _ = steps poly 8 ((c ^^^ b.setWidth w) &&& 255#w) ^^^ (c >>> 8) := by rw [hhigh]

/-! ## In a wider register -/

theorem step_setWidth (h : w ≤ v) (c : BitVec w) :
    step (poly.setWidth v) (c.setWidth v) = (step poly c).setWidth v := by
  have hlow : (c.setWidth v).getLsbD 0 = c.getLsbD 0 := by
    rw [BitVec.getLsbD_setWidth]
    by_cases hv : 0 < v
    · simp [hv]
    · simp [BitVec.getLsbD_of_ge c 0 (by omega)]
  apply BitVec.eq_of_getLsbD_eq
  intro i hi
  rw [step, step, hlow, BitVec.getLsbD_setWidth]
  cases c.getLsbD 0 with
  | true =>
    simp only [if_true, BitVec.getLsbD_xor, BitVec.getLsbD_setWidth, BitVec.getLsbD_ushiftRight, hi,
      decide_true, Bool.true_and]
    by_cases h1 : 1 + i < v
    · simp [h1]
    · simp [BitVec.getLsbD_of_ge c (1 + i) (by omega), h1]
  | false =>
    simp only [Bool.false_eq_true, if_false, BitVec.getLsbD_setWidth, BitVec.getLsbD_ushiftRight, hi,
      decide_true, Bool.true_and]
    by_cases h1 : 1 + i < v
    · simp [h1]
    · simp [BitVec.getLsbD_of_ge c (1 + i) (by omega), h1]

theorem steps_setWidth (h : w ≤ v) (n : Nat) (c : BitVec w) :
    steps (poly.setWidth v) n (c.setWidth v) = (steps poly n c).setWidth v := by
  induction n generalizing c with
  | zero => rfl
  | succ n ih => rw [steps, step_setWidth h, ih, steps]

/-- A wider register takes the bytes of a word at once. -/
theorem steps_leWord (hw : 8 ≤ w) (hv : w ≤ v) {bs : List (BitVec 8)} (h : 8 * bs.length ≤ v)
    (c : BitVec w) : steps (poly.setWidth v) (8 * bs.length) (c.setWidth v ^^^ leWord v bs) =
      (bs.foldl (byteStep poly) c).setWidth v := by
  induction bs generalizing c with
  | nil => rw [leWord, BitVec.xor_zero, List.foldl_nil, List.length_nil, Nat.mul_zero, steps]
  | cons b bs ih =>
    rw [List.length_cons] at h ⊢
    have hbyte : c.setWidth v ^^^ b.setWidth v = (c ^^^ b.setWidth w).setWidth v := by
      apply BitVec.eq_of_getLsbD_eq
      intro i hi
      simp only [BitVec.getLsbD_xor, BitVec.getLsbD_setWidth, hi, decide_true, Bool.true_and]
      by_cases hiw : i < w
      · simp [hiw]
      · simp [BitVec.getLsbD_of_ge b i (by omega), BitVec.getLsbD_of_ge c i (by omega)]
    have hback : (leWord v bs <<< 8) >>> 8 = leWord v bs := by
      apply BitVec.eq_of_getLsbD_eq
      intro i hi
      rw [BitVec.getLsbD_ushiftRight, BitVec.getLsbD_shiftLeft]
      by_cases hlt : 8 + i < v
      · simp [hlt]
      · rw [@getLsbD_leWord v bs i (by omega)]
        simp only [hlt, decide_false, Bool.false_and]
    have hclear : ∀ i < 8, (leWord v bs <<< 8).getLsbD i = false := by
      intro i hi
      rw [BitVec.getLsbD_shiftLeft]
      simp [hi]
    calc steps (poly.setWidth v) (8 * (bs.length + 1)) (c.setWidth v ^^^ leWord v (b :: bs))
        = steps (poly.setWidth v) (8 * bs.length) (steps (poly.setWidth v) 8
            ((c ^^^ b.setWidth w).setWidth v ^^^ (leWord v bs <<< 8))) := by
          rw [show 8 * (bs.length + 1) = 8 + 8 * bs.length by omega, steps_add, leWord,
            ← BitVec.xor_assoc, hbyte]
      _ = steps (poly.setWidth v) (8 * bs.length)
            ((byteStep poly c b).setWidth v ^^^ leWord v bs) := by
          rw [steps_xor, steps_setWidth hv, steps_of_clear hclear, hback, byteStep]
      _ = ((b :: bs).foldl (byteStep poly) c).setWidth v := by
          rw [ih (by omega), List.foldl_cons]

/-! ## Changes of a byte -/

theorem eq_zero_of_step_eq_zero (hpoly : poly.getLsbD (w - 1) = true) {c : BitVec w}
    (h : step poly c = 0#w) : c = 0#w := by
  unfold step at h
  split_ifs at h with hlow
  · -- the highest bit of the polynomial stays
    have htop := congrArg (·.getLsbD (w - 1)) h
    have hclear : c.getLsbD (1 + (w - 1)) = false := BitVec.getLsbD_of_ge c _ (by omega)
    simp only [BitVec.getLsbD_xor, BitVec.getLsbD_ushiftRight, hpoly, hclear, BitVec.getLsbD_zero,
      Bool.xor_false, Bool.true_eq_false] at htop
  · apply BitVec.eq_of_getLsbD_eq
    intro i _
    cases i with
    | zero => rw [BitVec.getLsbD_zero, ← Bool.not_eq_true]; exact hlow
    | succ i =>
      have hbit := congrArg (·.getLsbD i) h
      simp only [BitVec.getLsbD_ushiftRight, BitVec.getLsbD_zero] at hbit
      rw [Nat.add_comm, hbit, BitVec.getLsbD_zero]

/-- If the polynomial has its highest bit, nothing is lost in a step. -/
theorem step_injective (hpoly : poly.getLsbD (w - 1) = true) : Function.Injective (step poly) := by
  intro a b h
  apply BitVec.xor_eq_zero_iff.mp
  apply eq_zero_of_step_eq_zero hpoly
  rw [step_xor, h, BitVec.xor_self]

theorem steps_injective (hpoly : poly.getLsbD (w - 1) = true) (n : Nat) :
    Function.Injective (steps poly n) := by
  induction n with
  | zero => exact fun a b h => h
  | succ n ih => exact fun a b h => step_injective hpoly (ih h)

theorem byteStep_inj (hpoly : poly.getLsbD (w - 1) = true) {a c : BitVec w} {b : BitVec 8} :
    byteStep poly a b = byteStep poly c b ↔ a = c := by
  refine ⟨fun h => ?_, fun h => h ▸ rfl⟩
  exact (BitVec.xor_left_inj _).mp (steps_injective hpoly 8 h)

theorem byteStep_byte_inj (hpoly : poly.getLsbD (w - 1) = true) (hw : 8 ≤ w) {c : BitVec w}
    {a b : BitVec 8} (h : byteStep poly c a = byteStep poly c b) : a = b := by
  have hwide : a.setWidth w = b.setWidth w :=
    (BitVec.xor_right_inj _).mp (steps_injective hpoly 8 h)
  have hback := congrArg (·.setWidth 8) hwide
  simp only [BitVec.setWidth_setWidth_of_le _ hw, BitVec.setWidth_eq] at hback
  exact hback

theorem foldl_byteStep_inj (hpoly : poly.getLsbD (w - 1) = true) {l : List (BitVec 8)}
    {a c : BitVec w} : l.foldl (byteStep poly) a = l.foldl (byteStep poly) c ↔ a = c := by
  induction l generalizing a c with
  | nil => rfl
  | cons b l ih => rw [List.foldl_cons, List.foldl_cons, ih, byteStep_inj hpoly]

/-- A change of a single byte shows in the register. -/
theorem foldl_byteStep_set_ne (hpoly : poly.getLsbD (w - 1) = true) (hw : 8 ≤ w)
    {l : List (BitVec 8)} {i : Nat} {b x : BitVec 8} (hx : l[i]? = some x) (hb : b ≠ x)
    (c : BitVec w) : (l.set i b).foldl (byteStep poly) c ≠ l.foldl (byteStep poly) c := by
  induction l generalizing i c with
  | nil => cases hx
  | cons y l ih =>
    cases i with
    | zero =>
      obtain rfl : y = x := Option.some.inj hx
      rw [List.set_cons_zero, List.foldl_cons, List.foldl_cons, ne_eq, foldl_byteStep_inj hpoly]
      exact fun h => hb (byteStep_byte_inj hpoly hw h)
    | succ i => exact ih hx _

end CrcRegister
