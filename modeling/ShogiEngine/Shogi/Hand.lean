import ShogiEngine.Library.BitTricks
import ShogiEngine.Library.GuardedFields
import ShogiEngine.Shogi.Types

/-!
# Arithmetic of hands

The counts of a hand as digits of its word, and the effect of `Add`, `Sub` and the comparison
`Dominates` on them.

## Main definitions

- `Hand.Clean`: the bits between the counts are clear

## Main results

- `Hand.has_iff`: `Has` asks whether the count is positive
- `Hand.count_sub`, `Hand.count_add`: one count changes, the others stay
- `Hand.dominates_iff`: `Dominates` compares the counts of clean hands
-/

namespace Shogi

namespace Hand

/-- The number of bits of each count. -/
def kWidth : PieceType → Nat
  | .pawn => 5
  | .lance => 3
  | .knight => 3
  | .silver => 3
  | .bishop => 2
  | .rook => 2
  | .gold => 3
  | _ => 0

/-- A count is a digit of the word. -/
theorem count_eq (h : Hand) (pt : PieceType) :
    h.count pt = h.data.toNat / 2 ^ kBits pt % 2 ^ kWidth pt := by
  have hmask : ∀ pt, (kMask pt).toNat = 2 ^ kWidth pt - 1 := by
    intro pt
    cases pt <;> rfl
  rw [count, BitVec.toNat_and, hmask, Nat.and_two_pow_sub_one_eq_mod, BitVec.toNat_ushiftRight,
    Nat.shiftRight_eq_div_pow]

theorem count_lt (h : Hand) (pt : PieceType) : h.count pt < 2 ^ kWidth pt := by
  rw [count_eq]
  exact Nat.mod_lt _ (Nat.two_pow_pos _)

theorem has_iff (h : Hand) (pt : PieceType) : h.has pt = true ↔ 0 < h.count pt := by
  have hmask : ∀ pt, kMask2 pt = kMask pt <<< kBits pt ∧
      (kMask pt <<< kBits pt) >>> kBits pt = kMask pt := by
    intro pt
    cases pt <;> exact ⟨rfl, by decide⟩
  obtain ⟨h1, h2⟩ := hmask pt
  rw [has, bne_iff_ne, h1, Ne, BitTricks.and_shiftLeft_eq_zero_iff h2, count, Nat.pos_iff_ne_zero,
    Ne, BitVec.toNat_eq]
  rfl

/-- The counts of two types lie in disjoint parts of the word. -/
theorem kBits_disjoint {pt qt : PieceType} (hp : pt.isHandPiece = true)
    (hq : qt.isHandPiece = true) (hne : pt ≠ qt) :
    kBits pt + kWidth pt ≤ kBits qt ∨ kBits qt + kWidth qt ≤ kBits pt := by
  revert hp hq hne
  cases pt <;> cases qt <;> decide

theorem count_of_not_handPiece {pt : PieceType} (hp : pt.isHandPiece = false) (h : Hand) :
    h.count pt = 0 := by
  have hw : kWidth pt = 0 := by
    cases pt <;> first | rfl | cases hp
  rw [count_eq, hw, Nat.pow_zero, Nat.mod_one]

theorem toNat_kOne {pt : PieceType} (hp : pt.isHandPiece = true) :
    (kOne pt).toNat = 2 ^ kBits pt := by
  cases pt <;> first | rfl | cases hp

theorem kOne_of_not_handPiece {pt : PieceType} (hp : pt.isHandPiece = false) :
    kOne pt = 0#32 := by
  cases pt <;> first | rfl | cases hp

theorem isHandPiece_of_count_pos {h : Hand} {pt : PieceType} (hpos : 0 < h.count pt) :
    pt.isHandPiece = true := by
  by_contra hp
  rw [count_of_not_handPiece (Bool.not_eq_true _ ▸ hp)] at hpos
  omega

/-- Taking out a man that is held does not wrap around. -/
theorem toNat_sub {h : Hand} {pt : PieceType} (hpos : 0 < h.count pt) :
    (h.sub pt).data.toNat = h.data.toNat - 2 ^ kBits pt := by
  have hx := h.data.isLt
  have hge : 2 ^ kBits pt ≤ h.data.toNat := by
    by_contra hlt
    rw [count_eq, Nat.div_eq_of_lt (by omega)] at hpos
    simp at hpos
  rw [sub, BitVec.toNat_sub, toNat_kOne (isHandPiece_of_count_pos hpos)]
  generalize 2 ^ kBits pt = e at hge
  omega

/-- Putting a man into a hand with room does not wrap around. -/
theorem toNat_add {h : Hand} {pt : PieceType} (hp : pt.isHandPiece = true)
    (hroom : h.count pt + 1 < 2 ^ kWidth pt) :
    (h.add pt).data.toNat = h.data.toNat + 2 ^ kBits pt := by
  have hx := h.data.isLt
  rw [count_eq] at hroom
  rw [add, BitVec.toNat_add, toNat_kOne hp]
  apply Nat.mod_eq_of_lt
  cases pt <;> simp only [kBits, kWidth] at hroom ⊢ <;> omega

/-- Taking a man out of the hand lowers the count of its type and no other. -/
theorem count_sub {h : Hand} {pt : PieceType} (hpos : 0 < h.count pt) (qt : PieceType) :
    (h.sub pt).count qt = if qt = pt then h.count pt - 1 else h.count qt := by
  have hp := isHandPiece_of_count_pos hpos
  have hdata := toNat_sub hpos
  rw [count_eq] at hpos
  split
  · rename_i e
    rw [e, count_eq, count_eq, hdata, BitTricks.digit_sub_self hpos]
  · rename_i hne
    cases hq : qt.isHandPiece with
    | false => rw [count_of_not_handPiece hq, count_of_not_handPiece hq]
    | true =>
      rw [count_eq, count_eq, hdata]
      exact BitTricks.digit_sub hpos (kBits_disjoint hp hq (Ne.symm hne))

/-- Putting a man into a hand with room raises the count of its type and no other. -/
theorem count_add {h : Hand} {pt : PieceType} (hp : pt.isHandPiece = true)
    (hroom : h.count pt + 1 < 2 ^ kWidth pt) (qt : PieceType) :
    (h.add pt).count qt = if qt = pt then h.count pt + 1 else h.count qt := by
  have hdata := toNat_add hp hroom
  rw [count_eq] at hroom
  split
  · rename_i e
    rw [e, count_eq, count_eq, hdata, BitTricks.digit_add_self hroom]
  · rename_i hne
    cases hq : qt.isHandPiece with
    | false => rw [count_of_not_handPiece hq, count_of_not_handPiece hq]
    | true =>
      rw [count_eq, count_eq, hdata]
      exact BitTricks.digit_add hroom (kBits_disjoint hp hq (Ne.symm hne))

theorem add_of_not_handPiece {pt : PieceType} (hp : pt.isHandPiece = false) (h : Hand) :
    h.add pt = h := by
  rw [add, kOne_of_not_handPiece hp, BitVec.add_zero]

/-! ## Bits between the counts -/

/-- The runs of bits between the counts: where they start and how long they are. -/
def kGaps : List (Nat × Nat) := [(5, 3), (11, 1), (15, 1), (19, 1), (22, 2), (26, 2), (31, 1)]

/-- No count has carried into the bits above it. -/
def Clean (h : Hand) : Prop := ∀ g ∈ kGaps, h.data.toNat / 2 ^ g.1 % 2 ^ g.2 = 0

instance (h : Hand) : Decidable h.Clean :=
  inferInstanceAs (Decidable (∀ g ∈ kGaps, _ = 0))

theorem clean_empty : empty.Clean := by decide

theorem kBits_kGaps_disjoint {pt : PieceType} (hp : pt.isHandPiece = true) :
    ∀ g ∈ kGaps, kBits pt + kWidth pt ≤ g.1 ∨ g.1 + g.2 ≤ kBits pt := by
  revert hp
  cases pt <;> decide

theorem Clean.sub {h : Hand} (hc : h.Clean) {pt : PieceType} (hpos : 0 < h.count pt) :
    (h.sub pt).Clean := by
  intro g hg
  have hp := isHandPiece_of_count_pos hpos
  rw [toNat_sub hpos]
  rw [count_eq] at hpos
  rw [BitTricks.digit_sub hpos (kBits_kGaps_disjoint hp g hg)]
  exact hc g hg

theorem Clean.add {h : Hand} (hc : h.Clean) {pt : PieceType}
    (hroom : pt.isHandPiece = true → h.count pt + 1 < 2 ^ kWidth pt) : (h.add pt).Clean := by
  cases hp : pt.isHandPiece with
  | false =>
    rw [add_of_not_handPiece hp]
    exact hc
  | true =>
    intro g hg
    have hroom := hroom hp
    rw [toNat_add hp hroom]
    rw [count_eq] at hroom
    rw [BitTricks.digit_add hroom (kBits_kGaps_disjoint hp g hg)]
    exact hc g hg

/-- The counts as counters with guard bits. -/
def fields : List GuardedFields.Field :=
  [⟨5, 8, by decide⟩, ⟨3, 4, by decide⟩, ⟨3, 4, by decide⟩, ⟨3, 4, by decide⟩, ⟨2, 4, by decide⟩,
    ⟨2, 4, by decide⟩, ⟨3, 4, by decide⟩]

theorem fits_counts (h : Hand) :
    GuardedFields.Fits fields (PieceType.handTypes.map h.count) :=
  .cons (h.count_lt .pawn) <| .cons (h.count_lt .lance) <| .cons (h.count_lt .knight) <|
    .cons (h.count_lt .silver) <| .cons (h.count_lt .bishop) <| .cons (h.count_lt .rook) <|
    .cons (h.count_lt .gold) .nil

/-- A clean word is made of its counts. -/
theorem Clean.toNat_eq {h : Hand} (hc : h.Clean) :
    h.data.toNat = GuardedFields.word fields (PieceType.handTypes.map h.count) := by
  have hx := h.data.isLt
  have hgaps : ∀ i u, (i, u) ∈ kGaps → h.data.toNat / 2 ^ i % 2 ^ u = 0 := fun i u hm => hc _ hm
  have h1 := hgaps 5 3 (by decide)
  have h2 := hgaps 11 1 (by decide)
  have h3 := hgaps 15 1 (by decide)
  have h4 := hgaps 19 1 (by decide)
  have h5 := hgaps 22 2 (by decide)
  have h6 := hgaps 26 2 (by decide)
  have h7 := hgaps 31 1 (by decide)
  simp only [PieceType.handTypes, List.map, fields, GuardedFields.word, count_eq, kBits, kWidth]
  generalize h.data.toNat = x at *
  norm_num at *
  omega

/-- The comparison mask selects the guard bits. -/
theorem and_kBorrowMask_eq_zero_iff {x : BitVec 32} :
    x &&& kBorrowMask = 0#32 ↔ GuardedFields.GuardsClear fields x.toNat := by
  have hbit : ∀ i < 32, x &&& (1#32 <<< i) = 0#32 ↔ x.toNat / 2 ^ i % 2 = 0 := by
    intro i hi
    have htwo : BitVec.twoPow 32 i ≠ 0#32 := by
      intro h
      have hone := congrArg (BitVec.getLsbD · i) h
      simp [hi] at hone
    rw [← BitVec.twoPow_eq, BitVec.and_twoPow, BitVec.getLsbD, Nat.testBit_eq_decide_div_mod_eq]
    by_cases h1 : x.toNat / 2 ^ i % 2 = 1
    · simp [h1, htwo]
    · simp only [h1, decide_false, Bool.false_eq_true, if_false, true_iff]
      omega
  simp only [kBorrowMask, BitVec.and_or_distrib_left, BitVec.or_eq_zero_iff, and_assoc,
    hbit _ (show 5 < 32 by decide), hbit _ (show 11 < 32 by decide),
    hbit _ (show 15 < 32 by decide), hbit _ (show 19 < 32 by decide),
    hbit _ (show 22 < 32 by decide), hbit _ (show 26 < 32 by decide),
    hbit _ (show 31 < 32 by decide), fields, GuardedFields.GuardsClear, Nat.div_div_eq_div_mul,
    ← Nat.pow_add, and_true]

/-- `Dominates` compares the counts of clean hands. -/
theorem dominates_iff {h other : Hand} (hc : h.Clean) (hc' : other.Clean) :
    h.dominates other = true ↔ ∀ pt, other.count pt ≤ h.count pt := by
  have hdiff : (h.data - other.data).toNat =
      (GuardedFields.word fields (PieceType.handTypes.map h.count) + 2 ^ GuardedFields.size fields -
        GuardedFields.word fields (PieceType.handTypes.map other.count)) %
        2 ^ GuardedFields.size fields := by
    rw [← hc.toNat_eq, ← hc'.toNat_eq, BitVec.toNat_sub]
    have hle := other.data.isLt
    rw [show GuardedFields.size fields = 32 from rfl]
    congr 1
    omega
  rw [dominates, beq_iff_eq, and_kBorrowMask_eq_zero_iff, hdiff,
    GuardedFields.guardsClear_sub_iff h.fits_counts other.fits_counts]
  rw [List.forall₂_map_left_iff, List.forall₂_map_right_iff, List.forall₂_same]
  constructor
  · intro hle pt
    cases hp : pt.isHandPiece with
    | true => exact hle pt (PieceType.mem_handTypes.mpr hp)
    | false => rw [count_of_not_handPiece hp, count_of_not_handPiece hp]
  · exact fun hle pt _ => hle pt

end Hand

end Shogi
