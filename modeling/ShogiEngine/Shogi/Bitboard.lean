import Mathlib
import ShogiEngine.Library.BitTricks
import ShogiEngine.Shogi.Types

/-!
# Bitboards

`shogi/bitboard.h`: a set of squares in two 64-bit words. Squares 0 to 62 are bits 0 to 62 of
the low word, squares 63 to 80 are bits 0 to 17 of the high word, and no other bit is ever set
in a value of this type: `~` masks its result and every table and slider is masked by squares.

## Main results

- `ext_mem`: a bitboard is determined by its squares
- `squares_eq`: the `Pop` loop visits exactly the squares of the set in ascending order
-/

namespace Shogi

/-- The boundary between the two words. -/
def kBBSplit : Nat := 63

/-- The valid bits of the low word. -/
def kBBMask0 : BitVec 64 := 0x7FFFFFFFFFFFFFFF#64

/-- The valid bits of the high word. -/
def kBBMask1 : BitVec 64 := 0x000000000003FFFF#64

/-- A set of squares. The last two fields say that the unused bits are clear. -/
structure Bitboard where
  lo : BitVec 64
  hi : BitVec 64
  lo_lt : lo.toNat < 2 ^ 63
  hi_lt : hi.toNat < 2 ^ 18
  deriving DecidableEq

namespace Bitboard

/-! ## Single squares -/

/-- `Bitboard::Test`. -/
def test (b : Bitboard) (s : Square) : Bool :=
  if s.val < kBBSplit then b.lo.getLsbD s.val else b.hi.getLsbD (s.val - kBBSplit)

instance : Membership Square Bitboard := ⟨fun b s => b.test s = true⟩

theorem mem_def {b : Bitboard} {s : Square} : s ∈ b ↔ b.test s = true := Iff.rfl

@[simp] theorem test_iff {b : Bitboard} {s : Square} : b.test s = true ↔ s ∈ b := Iff.rfl

@[simp] theorem test_eq_false_iff {b : Bitboard} {s : Square} : b.test s = false ↔ s ∉ b := by
  rw [mem_def, Bool.not_eq_true]

instance (s : Square) (b : Bitboard) : Decidable (s ∈ b) :=
  inferInstanceAs (Decidable (b.test s = true))

/-- The two words of a single square. -/
theorem toNat_bit_lt {i n : Nat} (h : i < n) :
    (1#64 <<< i).toNat < 2 ^ n := by
  rw [BitVec.toNat_shiftLeft]
  refine lt_of_le_of_lt (Nat.mod_le _ _) ?_
  simp only [BitVec.toNat_ofNat, Nat.shiftLeft_eq]
  calc 1 % 2 ^ 64 * 2 ^ i = 2 ^ i := by simp
    _ < 2 ^ n := Nat.pow_lt_pow_right (by omega) h

/-- `Bitboard::Zero`. -/
def zero : Bitboard := ⟨0#64, 0#64, by decide, by decide⟩

/-- `Bitboard::All`. -/
def all : Bitboard := ⟨kBBMask0, kBBMask1, by decide, by decide⟩

/-- `Bitboard::FromSquare`. -/
def fromSquare (s : Square) : Bitboard :=
  if h : s.val < kBBSplit then
    ⟨1#64 <<< s.val, 0#64, toNat_bit_lt h, by decide⟩
  else
    ⟨0#64, 1#64 <<< (s.val - kBBSplit), by decide,
      toNat_bit_lt (by have := s.isLt; simp only [kBBSplit] at *; omega)⟩

/-! ## Set operations -/

instance : AndOp Bitboard :=
  ⟨fun a b => ⟨a.lo &&& b.lo, a.hi &&& b.hi,
    by rw [BitVec.toNat_and]; exact Nat.and_lt_two_pow _ b.lo_lt,
    by rw [BitVec.toNat_and]; exact Nat.and_lt_two_pow _ b.hi_lt⟩⟩

instance : OrOp Bitboard :=
  ⟨fun a b => ⟨a.lo ||| b.lo, a.hi ||| b.hi,
    by rw [BitVec.toNat_or]; exact Nat.or_lt_two_pow a.lo_lt b.lo_lt,
    by rw [BitVec.toNat_or]; exact Nat.or_lt_two_pow a.hi_lt b.hi_lt⟩⟩

instance : XorOp Bitboard :=
  ⟨fun a b => ⟨a.lo ^^^ b.lo, a.hi ^^^ b.hi,
    by rw [BitVec.toNat_xor]; exact Nat.xor_lt_two_pow a.lo_lt b.lo_lt,
    by rw [BitVec.toNat_xor]; exact Nat.xor_lt_two_pow a.hi_lt b.hi_lt⟩⟩

/-- `operator~`, masked to the board. -/
instance : Complement Bitboard :=
  ⟨fun a => ⟨~~~a.lo &&& kBBMask0, ~~~a.hi &&& kBBMask1,
    by rw [BitVec.toNat_and]; exact Nat.and_lt_two_pow _ (by decide),
    by rw [BitVec.toNat_and]; exact Nat.and_lt_two_pow _ (by decide)⟩⟩

/-- `AndNot`: `(~this) & other`. -/
def andNot (a b : Bitboard) : Bitboard :=
  ⟨~~~a.lo &&& b.lo, ~~~a.hi &&& b.hi,
    by rw [BitVec.toNat_and]; exact Nat.and_lt_two_pow _ b.lo_lt,
    by rw [BitVec.toNat_and]; exact Nat.and_lt_two_pow _ b.hi_lt⟩

/-- `Bitboard::Set`. -/
def set (b : Bitboard) (s : Square) : Bitboard := b ||| fromSquare s

/-- `Bitboard::Clear`. -/
def clear (b : Bitboard) (s : Square) : Bitboard := b &&& ~~~fromSquare s

/-- `Bitboard::Any`. -/
def any (b : Bitboard) : Bool := (b.lo ||| b.hi) != 0#64

/-- `Bitboard::Empty`. -/
def empty (b : Bitboard) : Bool := !b.any

theorem getLsbD_kBBMask0 {i : Nat} (h : i < 63) : kBBMask0.getLsbD i = true := by
  revert i
  decide

theorem getLsbD_kBBMask1 {i : Nat} (h : i < 18) : kBBMask1.getLsbD i = true := by
  revert i
  decide

@[simp] theorem mem_and {a b : Bitboard} {s : Square} : s ∈ a &&& b ↔ s ∈ a ∧ s ∈ b := by
  simp only [mem_def, test]
  change (if s.val < kBBSplit then (a.lo &&& b.lo).getLsbD s.val
    else (a.hi &&& b.hi).getLsbD (s.val - kBBSplit)) = true ↔ _
  split <;> simp

@[simp] theorem mem_or {a b : Bitboard} {s : Square} : s ∈ a ||| b ↔ s ∈ a ∨ s ∈ b := by
  simp only [mem_def, test]
  change (if s.val < kBBSplit then (a.lo ||| b.lo).getLsbD s.val
    else (a.hi ||| b.hi).getLsbD (s.val - kBBSplit)) = true ↔ _
  split <;> simp

theorem mem_xor {a b : Bitboard} {s : Square} : s ∈ a ^^^ b ↔ ¬ (s ∈ a ↔ s ∈ b) := by
  simp only [mem_def, test]
  change (if s.val < kBBSplit then (a.lo ^^^ b.lo).getLsbD s.val
    else (a.hi ^^^ b.hi).getLsbD (s.val - kBBSplit)) = true ↔ _
  split <;> rw [BitVec.getLsbD_xor, Bool.xor_iff_ne, Ne, Bool.eq_iff_iff]

@[simp] theorem mem_compl {a : Bitboard} {s : Square} : s ∈ ~~~a ↔ s ∉ a := by
  have hs := s.isLt
  simp only [mem_def, test]
  change (if s.val < kBBSplit then (~~~a.lo &&& kBBMask0).getLsbD s.val
    else (~~~a.hi &&& kBBMask1).getLsbD (s.val - kBBSplit)) = true ↔ _
  split
  · rename_i h
    rw [BitVec.getLsbD_and, getLsbD_kBBMask0 h, Bool.and_true, BitVec.getLsbD_not]
    simp only [kBBSplit] at h
    simp [show s.val < 64 by omega]
  · rename_i h
    simp only [kBBSplit] at h ⊢
    rw [BitVec.getLsbD_and, getLsbD_kBBMask1 (by omega), Bool.and_true, BitVec.getLsbD_not]
    simp [show s.val - 63 < 64 by omega]

@[simp] theorem mem_andNot {a b : Bitboard} {s : Square} : s ∈ a.andNot b ↔ s ∉ a ∧ s ∈ b := by
  have hs := s.isLt
  simp only [mem_def, test, andNot]
  split
  · rename_i h
    simp only [kBBSplit] at h
    simp [show s.val < 64 by omega]
  · rename_i h
    simp only [kBBSplit] at h
    simp [kBBSplit, show s.val - 63 < 64 by omega]

@[simp] theorem not_mem_zero {s : Square} : s ∉ zero := by
  simp [mem_def, test, zero]

@[simp] theorem mem_all {s : Square} : s ∈ all := by
  have hs := s.isLt
  simp only [mem_def, test, all]
  split
  · rename_i h
    exact getLsbD_kBBMask0 h
  · rename_i h
    simp only [kBBSplit] at h ⊢
    exact getLsbD_kBBMask1 (by omega)

@[simp] theorem mem_fromSquare {s t : Square} : t ∈ fromSquare s ↔ t = s := by
  have hs := s.isLt
  have ht := t.isLt
  have hbit : ∀ i j : Nat, i < 64 → ((1#64 <<< j).getLsbD i = true ↔ i = j) := by
    intro i j hi
    simp only [BitVec.getLsbD_shiftLeft, BitVec.getLsbD_one]
    grind
  have hsplit : kBBSplit = 63 := rfl
  rw [mem_def, test, Fin.ext_iff]
  by_cases h : s.val < kBBSplit <;> by_cases h' : t.val < kBBSplit
  · rw [fromSquare, dif_pos h, if_pos h']
    exact hbit _ _ (by omega)
  · rw [fromSquare, dif_pos h, if_neg h', BitVec.getLsbD_zero]
    grind
  · rw [fromSquare, dif_neg h, if_pos h', BitVec.getLsbD_zero]
    grind
  · rw [fromSquare, dif_neg h, if_neg h', hbit _ _ (by omega)]
    omega

@[simp] theorem mem_set {b : Bitboard} {s t : Square} : t ∈ b.set s ↔ t ∈ b ∨ t = s := by
  simp [set]

@[simp] theorem mem_clear {b : Bitboard} {s t : Square} : t ∈ b.clear s ↔ t ∈ b ∧ t ≠ s := by
  simp [clear]

/-! ## Extensionality -/

private theorem eq_of_getLsbD {x y : BitVec 64} {n : Nat} (hx : x.toNat < 2 ^ n)
    (hy : y.toNat < 2 ^ n) (h : ∀ i < n, x.getLsbD i = y.getLsbD i) : x = y := by
  apply BitVec.eq_of_getLsbD_eq
  intro i _
  by_cases hi : i < n
  · exact h i hi
  · have hpow : 2 ^ n ≤ 2 ^ i := Nat.pow_le_pow_right (by omega) (by omega)
    simp only [BitVec.getLsbD]
    rw [Nat.testBit_lt_two_pow (by omega), Nat.testBit_lt_two_pow (by omega)]

/-- A bitboard is determined by its squares. -/
theorem ext_mem {a b : Bitboard} (h : ∀ s, s ∈ a ↔ s ∈ b) : a = b := by
  have htest : ∀ s, a.test s = b.test s := fun s => Bool.eq_iff_iff.mpr (h s)
  have hlo : a.lo = b.lo := by
    refine eq_of_getLsbD a.lo_lt b.lo_lt fun i hi => ?_
    have := htest ⟨i, by omega⟩
    simpa [test, kBBSplit, hi] using this
  have hhi : a.hi = b.hi := by
    refine eq_of_getLsbD a.hi_lt b.hi_lt fun i hi => ?_
    have h63 : ¬ i + 63 < 63 := by omega
    have := htest ⟨i + 63, by omega⟩
    simpa [test, kBBSplit, h63] using this
  cases a
  cases b
  simp_all

theorem ext_mem_iff {a b : Bitboard} : a = b ↔ ∀ s, s ∈ a ↔ s ∈ b :=
  ⟨fun h s => by rw [h], ext_mem⟩

theorem and_or_distrib_left (a b c : Bitboard) : a &&& (b ||| c) = (a &&& b) ||| (a &&& c) := by
  apply ext_mem
  intro s
  simp only [mem_and, mem_or, and_or_left]

instance : Std.Associative (α := Bitboard) (· ||| ·) where
  assoc a b c := by
    apply ext_mem
    intro s
    simp only [mem_or, or_assoc]

instance : Std.Commutative (α := Bitboard) (· ||| ·) where
  comm a b := by
    apply ext_mem
    intro s
    simp only [mem_or, or_comm]

theorem any_iff {b : Bitboard} : b.any = true ↔ ∃ s, s ∈ b := by
  have hz : b.any = false ↔ b = zero := by
    simp only [any, bne_eq_false_iff_eq]
    constructor
    · intro h
      have h0 : b.lo = 0#64 ∧ b.hi = 0#64 := by simpa using h
      cases b
      simp_all [zero]
    · rintro rfl
      decide
  rw [← not_iff_not, Bool.not_eq_true, hz, ext_mem_iff]
  simp

theorem any_eq_false_iff {b : Bitboard} : b.any = false ↔ ∀ s, s ∉ b := by
  rw [← Bool.not_eq_true, any_iff, not_exists]

theorem empty_iff {b : Bitboard} : b.empty = true ↔ ∀ s, s ∉ b := by
  rw [empty, Bool.not_eq_true', any_eq_false_iff]

/-! ## Reading single bits of the words -/

theorem mem_of_lo {b : Bitboard} {i : Nat} (h : b.lo.getLsbD i = true) :
    ∃ hi : i < 63, (⟨i, by omega⟩ : Square) ∈ b := by
  have hi : i < 63 := by
    by_contra hge
    have hpow : 2 ^ 63 ≤ 2 ^ i := Nat.pow_le_pow_right (by omega) (by omega)
    have := b.lo_lt
    rw [BitVec.getLsbD, Nat.testBit_lt_two_pow (by omega)] at h
    cases h
  exact ⟨hi, by simpa [mem_def, test, kBBSplit, hi] using h⟩

theorem mem_of_hi {b : Bitboard} {i : Nat} (h : b.hi.getLsbD i = true) :
    ∃ hi : i < 18, (⟨i + 63, by omega⟩ : Square) ∈ b := by
  have hi : i < 18 := by
    by_contra hge
    have hpow : 2 ^ 18 ≤ 2 ^ i := Nat.pow_le_pow_right (by omega) (by omega)
    have := b.hi_lt
    rw [BitVec.getLsbD, Nat.testBit_lt_two_pow (by omega)] at h
    cases h
  have h63 : ¬ i + 63 < 63 := by omega
  exact ⟨hi, by simpa [mem_def, test, kBBSplit, h63] using h⟩

theorem lo_of_mem {b : Bitboard} {s : Square} (hs : s.val < 63) :
    b.lo.getLsbD s.val = true ↔ s ∈ b := by
  simp [mem_def, test, kBBSplit, hs]

theorem hi_of_mem {b : Bitboard} {s : Square} (hs : ¬ s.val < 63) :
    b.hi.getLsbD (s.val - 63) = true ↔ s ∈ b := by
  simp [mem_def, test, kBBSplit, hs]

/-- `FromRaw(w, 0)`. -/
def ofLo (w : BitVec 64) (h : w.toNat < 2 ^ 63) : Bitboard := ⟨w, 0#64, h, by decide⟩

/-- `FromRaw(0, w)`. -/
def ofHi (w : BitVec 64) (h : w.toNat < 2 ^ 18) : Bitboard := ⟨0#64, w, by decide, h⟩

theorem mem_ofLo {w : BitVec 64} {h : w.toNat < 2 ^ 63} {t : Square} :
    t ∈ ofLo w h ↔ w.getLsbD t.val = true := by
  by_cases ht : t.val < 63
  · exact (lo_of_mem ht).symm
  · rw [← hi_of_mem ht]
    refine ⟨fun hm => by simp [ofLo] at hm, fun hm => ?_⟩
    exact absurd (mem_of_lo (b := ofLo w h) hm).1 ht

theorem mem_ofHi {w : BitVec 64} {h : w.toNat < 2 ^ 18} {t : Square} :
    t ∈ ofHi w h ↔ 63 ≤ t.val ∧ w.getLsbD (t.val - 63) = true := by
  by_cases ht : t.val < 63
  · rw [← lo_of_mem ht]
    exact ⟨fun hm => by simp [ofHi] at hm, fun hm => by omega⟩
  · rw [← hi_of_mem ht]
    exact (and_iff_right (by omega)).symm

/-! ## Iteration -/

/-- The squares of the set in ascending order, as `ForEach` and the `Pop` loops visit them. -/
def squares (b : Bitboard) : List Square := (List.finRange 81).filter (b.test ·)

@[simp] theorem mem_squares {b : Bitboard} {s : Square} : s ∈ b.squares ↔ s ∈ b := by
  simp [squares, List.mem_finRange]

theorem nodup_squares (b : Bitboard) : b.squares.Nodup := (List.nodup_finRange 81).filter _

theorem sortedLT_squares (b : Bitboard) : b.squares.Pairwise (· < ·) :=
  List.Pairwise.filter _ (List.pairwise_lt_finRange 81)

/-- `Bitboard::Pop`: the lowest square and the rest of the set. -/
def pop (b : Bitboard) : Option (Square × Bitboard) :=
  if hlo : b.lo ≠ 0#64 then
    some (⟨b.lo.ctz.toNat, by
        have := (mem_of_lo (BitVec.getLsbD_true_ctz_of_ne_zero hlo)).1
        omega⟩,
      ⟨b.lo &&& (b.lo - 1#64), b.hi,
        by rw [BitVec.toNat_and]; exact lt_of_le_of_lt Nat.and_le_left b.lo_lt, b.hi_lt⟩)
  else if hhi : b.hi ≠ 0#64 then
    some (⟨b.hi.ctz.toNat + kBBSplit, by
        have := (mem_of_hi (BitVec.getLsbD_true_ctz_of_ne_zero hhi)).1
        simp only [kBBSplit]
        omega⟩,
      ⟨b.lo, b.hi &&& (b.hi - 1#64), b.lo_lt,
        by rw [BitVec.toNat_and]; exact lt_of_le_of_lt Nat.and_le_left b.hi_lt⟩)
  else none

/-- What `Pop` returns: the least square, and the set without it. -/
theorem pop_spec {b b' : Bitboard} {s : Square} (h : b.pop = some (s, b')) :
    s ∈ b ∧ (∀ t ∈ b, s ≤ t) ∧ ∀ t, t ∈ b' ↔ t ∈ b ∧ t ≠ s := by
  rw [pop] at h
  split at h
  · rename_i hlo
    obtain ⟨rfl, rfl⟩ := Prod.mk.inj (Option.some.inj h)
    obtain ⟨hc, hlow⟩ := (BitTricks.ctz_eq_iff hlo).mp rfl
    obtain ⟨hlt, hmem⟩ := mem_of_lo hc
    refine ⟨hmem, fun t ht => ?_, fun t => ?_⟩
    · by_contra hlt'
      have h1 : t.val < b.lo.ctz.toNat := by simpa [Fin.le_def] using hlt'
      have := hlow t.val h1
      rw [(lo_of_mem (by omega)).mpr ht] at this
      cases this
    · by_cases ht : t.val < 63
      · rw [← lo_of_mem ht, ← lo_of_mem ht, BitTricks.getLsbD_and_sub_one _ _ (by omega),
          Bool.and_eq_true, decide_eq_true_eq]
        refine and_congr_right fun hmt => ⟨?_, ?_⟩
        · rintro ⟨j, hj, hbj⟩ heq
          have heq' : t.val = b.lo.ctz.toNat := congrArg Fin.val heq
          rw [hlow j (by omega)] at hbj
          cases hbj
        · intro hne
          refine ⟨b.lo.ctz.toNat, ?_, hc⟩
          have hge : ¬ t.val < b.lo.ctz.toNat := fun hlt' => by
            rw [hlow _ hlt'] at hmt
            cases hmt
          have : t.val ≠ b.lo.ctz.toNat := fun e => hne (Fin.ext e)
          omega
      · rw [← hi_of_mem ht, ← hi_of_mem ht]
        refine ⟨fun hm => ⟨hm, fun e => ht ?_⟩, fun hm => hm.1⟩
        rw [e]
        exact hlt
  · rename_i hlo
    split at h
    · rename_i hhi
      obtain ⟨rfl, rfl⟩ := Prod.mk.inj (Option.some.inj h)
      obtain ⟨hc, hlow⟩ := (BitTricks.ctz_eq_iff hhi).mp rfl
      obtain ⟨hlt, hmem⟩ := mem_of_hi hc
      have hzero : b.lo = 0#64 := by simpa using hlo
      have hge : ∀ t ∈ b, ¬ t.val < 63 := by
        intro t ht htlt
        have := (lo_of_mem htlt).mpr ht
        simp [hzero] at this
      refine ⟨hmem, fun t ht => ?_, fun t => ?_⟩
      · by_contra hlt'
        have h1 : t.val < b.hi.ctz.toNat + 63 := by simpa [Fin.le_def, kBBSplit] using hlt'
        have h2 := hge t ht
        have := hlow (t.val - 63) (by omega)
        rw [(hi_of_mem h2).mpr ht] at this
        cases this
      · by_cases ht : t.val < 63
        · rw [← lo_of_mem ht, ← lo_of_mem ht]
          simp [hzero]
        · rw [← hi_of_mem ht, ← hi_of_mem ht, BitTricks.getLsbD_and_sub_one _ _ (by omega),
            Bool.and_eq_true, decide_eq_true_eq]
          refine and_congr_right fun hmt => ⟨?_, ?_⟩
          · rintro ⟨j, hj, hbj⟩ heq
            have heq' : t.val = b.hi.ctz.toNat + 63 := congrArg Fin.val heq
            rw [hlow j (by omega)] at hbj
            cases hbj
          · intro hne
            refine ⟨b.hi.ctz.toNat, ?_, hc⟩
            have hge' : ¬ t.val - 63 < b.hi.ctz.toNat := fun hlt' => by
              rw [hlow _ hlt'] at hmt
              cases hmt
            have : t.val ≠ b.hi.ctz.toNat + 63 := fun e => hne (Fin.ext e)
            omega
    · cases h

theorem pop_eq_none_iff {b : Bitboard} : b.pop = none ↔ b.any = false := by
  rw [pop, any]
  split <;> simp_all

/-- The `while (b.Any()) { s = b.Pop(); ... }` loop visits the squares of `b` in ascending
order. -/
theorem squares_eq (b : Bitboard) :
    b.squares = match b.pop with
      | none => []
      | some (s, b') => s :: b'.squares := by
  cases h : b.pop with
  | none =>
    rw [pop_eq_none_iff, any_eq_false_iff] at h
    exact List.eq_nil_iff_forall_not_mem.mpr fun s hs => h s (mem_squares.mp hs)
  | some p =>
    obtain ⟨s, b'⟩ := p
    obtain ⟨hs, hle, hb'⟩ := pop_spec h
    have hsorted : (s :: b'.squares).Pairwise (· < ·) := by
      refine List.Pairwise.cons (fun t ht => ?_) b'.sortedLT_squares
      obtain ⟨htb, hne⟩ := (hb' t).mp (mem_squares.mp ht)
      exact lt_of_le_of_ne (hle t htb) (Ne.symm hne)
    refine List.Perm.eq_of_pairwise (fun a b _ _ h1 h2 => absurd h1 (lt_asymm h2))
      b.sortedLT_squares hsorted ?_
    rw [List.perm_ext_iff_of_nodup b.nodup_squares (hsorted.imp fun h => ne_of_lt h)]
    intro t
    simp only [mem_squares, List.mem_cons, hb']
    constructor
    · intro ht
      by_cases hts : t = s
      · exact Or.inl hts
      · exact Or.inr ⟨ht, hts⟩
    · rintro (rfl | ⟨ht, -⟩)
      · exact hs
      · exact ht

/-- `Bitboard::Peek`: the lowest square. -/
def peek (b : Bitboard) : Option Square := b.squares.head?

theorem mem_of_peek {b : Bitboard} {s : Square} (h : b.peek = some s) : s ∈ b :=
  mem_squares.mp (List.mem_of_mem_head? h)

/-- `Bitboard::PopCount`. -/
def popCount (b : Bitboard) : Nat := b.squares.length

/-- `Bitboard::MoreThanOne`: both words have bits, or one word has two. -/
def moreThanOne (b : Bitboard) : Bool :=
  if b.lo ≠ 0#64 ∧ b.hi ≠ 0#64 then true
  else (b.lo &&& (b.lo - 1#64)) != 0#64 || (b.hi &&& (b.hi - 1#64)) != 0#64

private theorem and_sub_one_ne_zero_iff {x : BitVec 64} :
    (x &&& (x - 1#64)) ≠ 0#64 ↔
      ∃ i j, j < i ∧ i < 64 ∧ x.getLsbD i = true ∧ x.getLsbD j = true := by
  constructor
  · intro h
    obtain ⟨i, hi, hx⟩ := BitTricks.exists_getLsbD_of_ne_zero h
    rw [BitTricks.getLsbD_and_sub_one _ _ hi, Bool.and_eq_true, decide_eq_true_eq] at hx
    obtain ⟨hxi, j, hj, hxj⟩ := hx
    exact ⟨i, j, hj, hi, hxi, hxj⟩
  · rintro ⟨i, j, hj, hi, hxi, hxj⟩ h
    have := BitTricks.getLsbD_and_sub_one x i hi
    rw [h, hxi, BitVec.getLsbD_zero, Bool.true_and] at this
    exact absurd ⟨j, hj, hxj⟩ (of_decide_eq_false this.symm)

theorem moreThanOne_iff {b : Bitboard} :
    b.moreThanOne = true ↔ ∃ s t, s ≠ t ∧ s ∈ b ∧ t ∈ b := by
  constructor
  · intro h
    rw [moreThanOne] at h
    split at h
    · rename_i hne
      obtain ⟨i, -, hi⟩ := BitTricks.exists_getLsbD_of_ne_zero hne.1
      obtain ⟨j, -, hj⟩ := BitTricks.exists_getLsbD_of_ne_zero hne.2
      obtain ⟨hi', hmi⟩ := mem_of_lo hi
      obtain ⟨hj', hmj⟩ := mem_of_hi hj
      exact ⟨_, _, by simp only [ne_eq, Fin.mk.injEq]; omega, hmi, hmj⟩
    · rw [Bool.or_eq_true, bne_iff_ne, bne_iff_ne, and_sub_one_ne_zero_iff,
        and_sub_one_ne_zero_iff] at h
      rcases h with ⟨i, j, hlt, -, hi, hj⟩ | ⟨i, j, hlt, -, hi, hj⟩
      · obtain ⟨hi', hmi⟩ := mem_of_lo hi
        obtain ⟨hj', hmj⟩ := mem_of_lo hj
        exact ⟨_, _, by simp only [ne_eq, Fin.mk.injEq]; omega, hmi, hmj⟩
      · obtain ⟨hi', hmi⟩ := mem_of_hi hi
        obtain ⟨hj', hmj⟩ := mem_of_hi hj
        exact ⟨_, _, by simp only [ne_eq, Fin.mk.injEq]; omega, hmi, hmj⟩
  · rintro ⟨s, t, hne, hs, ht⟩
    wlog hlt : s < t generalizing s t
    · exact this t s hne.symm ht hs (lt_of_le_of_ne (not_lt.mp hlt) hne.symm)
    have hst : s.val < t.val := hlt
    have htlt := t.isLt
    rw [moreThanOne]
    split
    · rfl
    · rename_i hboth
      rw [Bool.or_eq_true, bne_iff_ne, bne_iff_ne, and_sub_one_ne_zero_iff,
        and_sub_one_ne_zero_iff]
      by_cases h1 : t.val < 63
      · exact Or.inl ⟨t.val, s.val, hst, by omega, (lo_of_mem h1).mpr ht,
          (lo_of_mem (by omega)).mpr hs⟩
      · by_cases h2 : s.val < 63
        · refine absurd ⟨fun h => ?_, fun h => ?_⟩ hboth
          · have := (lo_of_mem h2).mpr hs
            simp [h] at this
          · have := (hi_of_mem h1).mpr ht
            simp [h] at this
        · exact Or.inr ⟨t.val - 63, s.val - 63, by omega, by omega, (hi_of_mem h1).mpr ht,
            (hi_of_mem h2).mpr hs⟩

end Bitboard

end Shogi
