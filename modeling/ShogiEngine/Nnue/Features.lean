import ShogiEngine.Library.PrefixSums
import ShogiEngine.Rules.Offsets
import ShogiEngine.Rules.Symmetry
import ShogiEngine.Shogi.Board

/-!
# Features

The inputs of the networks: the slots of the men and of the hands in the frame of a colour, the
pairs of an attacker and what it attacks, and the inputs of the policy. A feature list is a list of
row numbers; the bound of its array is a theorem about its length.

## Main definitions

- `boardSlot`, `handSlot`, `frameSq`: slots and frames
- `pairIndex`: the number of a geometric pair, by prefix sums over the empty-board reaches
- `groupAFeatures`, `groupBFeatures`, `policyFeatures`: the three inputs, from scratch
- `FrameState`, `groupADiff`: the first input as a difference to an earlier board

## Main results

- `mem_emptyBoardReach`: the table of reaches in terms of `Reach`
- `pairsTotal_eq`: the check of the constructor, 8228 pairs
- `pairIndex_lt`, `pairIndex_inj`: pairs have different numbers below it
-/

namespace Shogi

namespace Nnue

open ShogiBoard

/-! ## Constants -/

def kTypeIds : Nat := 14

/-- `TypeId`: 0 is the king. -/
def typeId (pt : PieceType) : Nat :=
  if pt.idx = 8 then 0 else if pt.idx < 8 then pt.idx else pt.idx - 1

/-- `TypeFromId`. -/
def typeFromId (tid : Nat) : PieceType :=
  .fromIdx (if tid = 0 then 8 else if tid < 8 then tid else tid + 1)

theorem typeFromId_typeId {pt : PieceType} (hpt : pt.isValid = true) : typeFromId (typeId pt) = pt := by
  cases pt <;> first | rfl | cases hpt

theorem typeId_lt {pt : PieceType} (hpt : pt.isValid = true) : typeId pt < kTypeIds := by
  cases pt <;> first | decide | cases hpt

theorem typeId_typeFromId {tid : Nat} (htid : tid < kTypeIds) : typeId (typeFromId tid) = tid := by
  have hall : ∀ tid < kTypeIds, typeId (typeFromId tid) = tid := by decide
  exact hall tid htid

def kHandKinds : Nat := 7

def kHandMax : Nat → Nat
  | 0 => 18 | 1 => 4 | 2 => 4 | 3 => 4 | 4 => 2 | 5 => 2 | _ => 4

def kHandOff : Nat → Nat
  | 0 => 0 | 1 => 18 | 2 => 22 | 3 => 26 | 4 => 30 | 5 => 32 | _ => 34

def kHandSlotsPerOwner : Nat := 38

def kHandSlots : Nat := 2 * kHandSlotsPerOwner

def kBoardSlots : Nat := 2 * kTypeIds * 81

def kNumSlots : Nat := kHandSlots + kBoardSlots

/-- `BoardSlot`. -/
def boardSlot (owner tid : Nat) (sq : Square) : Nat :=
  kHandSlots + (owner * kTypeIds + tid) * 81 + sq.val

/-- `HandSlot`; `k` counts from 1. -/
def handSlot (owner h k : Nat) : Nat := owner * kHandSlotsPerOwner + kHandOff h + k - 1

def kGroupAInputs : Nat := 81 * kNumSlots

def kMaxActiveA : Nat := 128

def kPairsPerOwner : Nat := 8228

def kThreatClasses : Nat := 16

def kThreatInputs : Nat := 2 * kPairsPerOwner * kThreatClasses

def kGroupBInputs : Nat := kNumSlots + kThreatInputs

def kMaxActiveB : Nat := 512

/-- `ThreatClass`. -/
def threatClass : Nat → Nat
  | 0 => 7 | 1 => 0 | 2 => 1 | 3 => 2 | 4 => 3 | 5 => 5 | 6 => 6 | 7 => 4
  | 8 => 4 | 9 => 4 | 10 => 4 | 11 => 4 | 12 => 5 | _ => 6

def kPolicyBoardInputs : Nat := kBoardSlots * 4

def kPolicyInputs : Nat := kPolicyBoardInputs + kHandSlots

def kMaxActivePolicy : Nat := 40 + 2 * kHandSlotsPerOwner

/-- `FrameSq`. -/
def frameSq (p : Color) (s : Square) : Square := if p = .black then s else s.flipped

/-- `OwnSq`. -/
def ownSq (c : Color) (s : Square) : Square := frameSq c s

/-- `c != p`, as a number. -/
def ownerOf (c p : Color) : Nat := if c = p then 0 else 1

/-- The colours in the order of the loops. -/
def colors : List Color := [.black, .white]

/-- The type ids without the king, in the order of the loops. -/
def slotTypes : List Nat := List.range' 1 (kTypeIds - 1)

/-! ## Pairs -/

/-- `EmptyBoardReach`: the reach of a black man of type `tid`. -/
def emptyBoardReach (tid : Nat) (s : Square) : Bitboard :=
  match typeFromId tid with
  | .pawn => pawnEffectBB s .black
  | .lance => lanceEffect .black s .zero
  | .knight => knightEffectBB s .black
  | .silver => silverEffectBB s .black
  | .bishop => bishopEffect s .zero
  | .rook => rookEffect s .zero
  | .gold | .proPawn | .proLance | .proKnight | .proSilver => goldEffectBB s .black
  | .king => kingEffectBB s
  | .horse => bishopEffect s .zero ||| horseStepBB s
  | .dragon => rookEffect s .zero ||| dragonStepBB s
  | _ => .zero

/-- The reach that the loops of `InitPairs` come to after `i` others. -/
def reachAt (i : Nat) : Bitboard := emptyBoardReach (i / 81) (.fromIdx i)

/-- `running`, after the first `i` reaches. -/
def pairsBefore (i : Nat) : Nat := PrefixSums.before (fun i => (reachAt i).popCount) i

/-- `g_pairs.off`. -/
def pairsOff (tid : Nat) (s : Square) : Nat := pairsBefore (tid * 81 + s.val)

/-- `g_pairs.total`. -/
def pairsTotal : Nat := pairsBefore (kTypeIds * 81)

/-- `(UINT64_C(1) << i) - 1`. -/
def lowOnes (i : Nat) : BitVec 64 := (1#64 <<< i) - 1#64

theorem toNat_lowOnes {i : Nat} (h : i < 64) : (lowOnes i).toNat = 2 ^ i - 1 := by
  have hpow : 2 ^ i < 2 ^ 64 := Nat.pow_lt_pow_right (by decide) h
  have hpos : 0 < 2 ^ i := Nat.two_pow_pos i
  rw [lowOnes, BitVec.toNat_sub, BitVec.toNat_shiftLeft, Nat.shiftLeft_eq]
  simp only [BitVec.toNat_ofNat]
  omega

theorem lowOnes_lt {i n : Nat} (h : i < 64) (hn : i ≤ n) : (lowOnes i).toNat < 2 ^ n := by
  have hpow : 2 ^ i ≤ 2 ^ n := Nat.pow_le_pow_right (by decide) hn
  have hpos : 0 < 2 ^ i := Nat.two_pow_pos i
  rw [toNat_lowOnes h]
  omega

theorem getLsbD_lowOnes {i j : Nat} (h : i < 64) : (lowOnes i).getLsbD j = decide (j < i) := by
  rw [BitVec.getLsbD, toNat_lowOnes h, Nat.testBit_two_pow_sub_one]

theorem lowOnes_lo_lt {s : Square} (h : s.val < kBBSplit) : (lowOnes s.val).toNat < 2 ^ 63 :=
  lowOnes_lt (h.trans (by decide)) h.le

theorem lowOnes_hi_lt (s : Square) : (lowOnes (s.val - kBBSplit)).toNat < 2 ^ 18 := by
  rw [kBBSplit]
  exact lowOnes_lt (by omega) (by omega)

theorem kBBMask0_lt : kBBMask0.toNat < 2 ^ 63 := by decide

/-- `BelowMask`. -/
def belowMask (s : Square) : Bitboard :=
  if h : s.val < kBBSplit then .ofLo (lowOnes s.val) (lowOnes_lo_lt h)
  else ⟨kBBMask0, lowOnes (s.val - kBBSplit), kBBMask0_lt, lowOnes_hi_lt s⟩

/-- `(dest & BelowMask(to)).PopCount()`. -/
def rankIn (dest : Bitboard) (s : Square) : Nat := (dest &&& belowMask s).popCount

/-- `PairIndex`. -/
def pairIndex (tid : Nat) (ownFrom ownTo : Square) : Nat :=
  pairsOff tid ownFrom + rankIn (emptyBoardReach tid ownFrom) ownTo

/-! ## Pairs have numbers of their own -/

section Pairs

variable {tid tid' : Nat} {s s' t t' : Square}

theorem emptyBoardReach_eq : emptyBoardReach tid s = pieceAttacks (typeFromId tid) .black s .zero := by
  unfold emptyBoardReach pieceAttacks
  cases typeFromId tid <;> rfl

/-- The table of reaches. -/
theorem mem_emptyBoardReach : t ∈ emptyBoardReach tid s ↔ Reach (typeFromId tid) .black s t := by
  rw [emptyBoardReach_eq, mem_pieceAttacks]
  exact and_iff_left fun u _ => Bitboard.not_mem_zero

theorem mem_belowMask : t ∈ belowMask s ↔ t < s := by
  have ht := t.isLt
  have hs := s.isLt
  rw [Fin.lt_def]
  by_cases h : s.val < kBBSplit
  · rw [belowMask, dif_pos h, Bitboard.mem_ofLo, getLsbD_lowOnes (h.trans (by decide)),
      decide_eq_true_eq]
  · rw [belowMask, dif_neg h]
    rw [kBBSplit] at h
    by_cases ht' : t.val < 63
    · rw [← Bitboard.lo_of_mem ht']
      exact iff_of_true (Bitboard.getLsbD_kBBMask0 ht') (by omega)
    · rw [← Bitboard.hi_of_mem ht']
      change (lowOnes (s.val - 63)).getLsbD (t.val - 63) = true ↔ _
      rw [getLsbD_lowOnes (by omega), decide_eq_true_eq]
      omega

/-- `PopCount` counts the members. -/
theorem popCount_eq_card (d : Bitboard) : d.popCount = d.squares.toFinset.card := by
  rw [List.toFinset_card_of_nodup d.nodup_squares, Bitboard.popCount]

theorem rankIn_eq (d : Bitboard) (t : Square) : rankIn d t = PrefixSums.rank d.squares.toFinset t := by
  rw [rankIn, popCount_eq_card, PrefixSums.rank]
  congr 1
  ext u
  simp only [List.mem_toFinset, Bitboard.mem_squares, Bitboard.mem_and, mem_belowMask,
    Finset.mem_filter]

theorem rankIn_lt {d : Bitboard} (ht : t ∈ d) : rankIn d t < d.popCount := by
  rw [rankIn_eq, popCount_eq_card]
  exact PrefixSums.rank_lt (List.mem_toFinset.mpr (Bitboard.mem_squares.mpr ht))

theorem rankIn_inj {d : Bitboard} (ht : t ∈ d) (ht' : t' ∈ d) (h : rankIn d t = rankIn d t') :
    t = t' := by
  rw [rankIn_eq, rankIn_eq] at h
  exact PrefixSums.rank_inj (List.mem_toFinset.mpr (Bitboard.mem_squares.mpr ht))
    (List.mem_toFinset.mpr (Bitboard.mem_squares.mpr ht')) h

/-- The reach of a type from a square is the one that the loops come to after that many. -/
theorem reachAt_eq : reachAt (tid * 81 + s.val) = emptyBoardReach tid s := by
  have hs := s.isLt
  have hdiv : (tid * 81 + s.val) / 81 = tid := by omega
  have hmod : Square.fromIdx (tid * 81 + s.val) = s := by
    apply Fin.ext
    rw [Square.fromIdx]
    simp only
    omega
  rw [reachAt, hdiv, hmod]

/-- The table has as many squares as the offsets lead to. -/
theorem popCount_reachAt (i : Nat) :
    (reachAt i).popCount = (landings (typeFromId (i / 81)) (.fromIdx i)).length := by
  refine ((List.perm_ext_iff_of_nodup (Bitboard.nodup_squares _) nodup_landings).mpr ?_).length_eq
  intro t
  rw [Bitboard.mem_squares, reachAt, mem_emptyBoardReach, mem_landings]

/-- The check in `InitPairs`. -/
theorem pairsTotal_eq : pairsTotal = kPairsPerOwner := by
  rw [pairsTotal, pairsBefore, PrefixSums.before_congr fun i _ => popCount_reachAt i]
  decide +kernel

theorem pairIndex_lt (htid : tid < kTypeIds) (ht : t ∈ emptyBoardReach tid s) :
    pairIndex tid s t < kPairsPerOwner := by
  have hs := s.isLt
  rw [← pairsTotal_eq, pairIndex, pairsOff, pairsTotal, pairsBefore, pairsBefore]
  refine PrefixSums.before_add_lt (by rw [kTypeIds] at *; omega) ?_
  rw [reachAt_eq]
  exact rankIn_lt ht

/-- The number of a pair decides it. -/
theorem pairIndex_inj (ht : t ∈ emptyBoardReach tid s) (ht' : t' ∈ emptyBoardReach tid' s')
    (h : pairIndex tid s t = pairIndex tid' s' t') : tid = tid' ∧ s = s' ∧ t = t' := by
  have hs := s.isLt
  have hs' := s'.isLt
  obtain ⟨hblock, hrank⟩ := PrefixSums.before_add_inj (by rw [reachAt_eq]; exact rankIn_lt ht)
    (by rw [reachAt_eq]; exact rankIn_lt ht') h
  have htid : tid = tid' := by omega
  have hsq : s = s' := Fin.ext (by omega)
  subst htid hsq
  exact ⟨rfl, rfl, rankIn_inj ht ht' hrank⟩

end Pairs

/-! ## Group A -/

/-- `KingFrameSq`: square 0 without a king. -/
def kingFrameSq (b : ShogiBoard) (p : Color) : Square :=
  ((b.kingSq p).map (frameSq p)).getD (.fromIdx 0)

/-- `HandKindType`. -/
def handKindType (h : Nat) : PieceType := .fromIdx (h + 1)

/-- The loop over the board men of colour `c` in the frame of `p`. -/
def boardSlots (b : ShogiBoard) (p c : Color) : List Nat :=
  slotTypes.flatMap fun tid => (b.piecesOf c (typeFromId tid)).squares.map fun s =>
    boardSlot (ownerOf c p) tid (frameSq p s)

/-- The loop over the hand of colour `c` in the frame of `p`. -/
def handSlots (b : ShogiBoard) (p c : Color) : List Nat :=
  (List.range kHandKinds).flatMap fun h =>
    (List.range' 1 ((b.hand c).count (handKindType h))).map fun k => handSlot (ownerOf c p) h k

/-- `base`: the rows of the king's square. -/
def kingBase (b : ShogiBoard) (p : Color) : Nat := (kingFrameSq b p).val * kNumSlots

/-- `GroupAFeatures`. -/
def groupAFeatures (b : ShogiBoard) (p : Color) : List Nat :=
  colors.flatMap fun c => (boardSlots b p c ++ handSlots b p c).map (kingBase b p + ·)

/-- `FrameState`: what an accumulator was built from, by owner and type and by owner and kind. -/
structure FrameState where
  pieces : Nat × Nat → Bitboard
  hand : Nat × Nat → BitVec 8
  initialized : Bool

/-- `FrameState{}`. -/
def FrameState.new : FrameState := ⟨fun _ => .zero, fun _ => 0#8, false⟩

/-- Both lists of `GroupADiff` and the state that it updates. -/
structure GroupADiff where
  state : FrameState
  adds : List Nat
  subs : List Nat

/-- The rows of one type on the squares of `bb`. -/
def boardRows (b : ShogiBoard) (p c : Color) (tid : Nat) (bb : Bitboard) : List Nat :=
  bb.squares.map fun s => kingBase b p + boardSlot (ownerOf c p) tid (frameSq p s)

/-- The rows of one kind in the hand, `n` of them from number `k` on. -/
def handRows (b : ShogiBoard) (p c : Color) (h k n : Nat) : List Nat :=
  (List.range' k n).map fun k => kingBase b p + handSlot (ownerOf c p) h k

/-- One pass of the loop over the types in `GroupADiff`. -/
def diffPieces (b : ShogiBoard) (p c : Color) (d : GroupADiff) (tid : Nat) : GroupADiff :=
  let cur := b.piecesOf c (typeFromId tid)
  let old := d.state.pieces (ownerOf c p, tid)
  let diff := cur ^^^ old
  if diff.empty then d else
    { state := { d.state with pieces := Function.update d.state.pieces (ownerOf c p, tid) cur }
      subs := d.subs ++ boardRows b p c tid (diff &&& old)
      adds := d.adds ++ boardRows b p c tid (diff &&& cur) }

/-- One pass of the loop over the hand in `GroupADiff`. -/
def diffHand (b : ShogiBoard) (p c : Color) (d : GroupADiff) (h : Nat) : GroupADiff :=
  let nc := (b.hand c).count (handKindType h)
  let oc := (d.state.hand (ownerOf c p, h)).toNat
  { state := { d.state with
      hand := Function.update d.state.hand (ownerOf c p, h) (BitVec.ofNat 8 nc) }
    adds := d.adds ++ handRows b p c h (oc + 1) (nc - oc)
    subs := d.subs ++ handRows b p c h (nc + 1) (oc - nc) }

/-- The passes of the loops in `GroupADiff`. -/
inductive DiffPass
  | pieces (c : Color) (tid : Nat)
  | hand (c : Color) (h : Nat)

/-- The order of the passes. -/
def diffPasses : List DiffPass :=
  colors.flatMap fun c => slotTypes.map (.pieces c) ++ (List.range kHandKinds).map (.hand c)

def diffPass (b : ShogiBoard) (p : Color) (d : GroupADiff) : DiffPass → GroupADiff
  | .pieces c tid => diffPieces b p c d tid
  | .hand c h => diffHand b p c d h

/-- `GroupADiff`. -/
def groupADiff (b : ShogiBoard) (p : Color) (st : FrameState) : GroupADiff :=
  let d := diffPasses.foldl (diffPass b p) ⟨st, [], []⟩
  { d with state := { d.state with initialized := true } }

/-! ## Group B -/

/-- A threat: a man of type `tid` on `src` and an occupied square that it attacks. -/
structure Threat where
  tid : Nat
  src : Square
  dst : Square
  deriving DecidableEq

/-- The threats of colour `c`, in the order of the loops. -/
def threats (b : ShogiBoard) (c : Color) : List Threat :=
  (List.range kTypeIds).flatMap fun tid =>
    (b.piecesOf c (typeFromId tid)).squares.flatMap fun src =>
      (pieceAttacks (typeFromId tid) c src b.occupied &&& b.occupied).squares.map fun dst =>
        ⟨tid, src, dst⟩

/-- `cls`: the class of what is attacked. -/
def targetClass (b : ShogiBoard) (s : Square) : Nat :=
  (if (b.board s).color ≠ b.sideToMove then 8 else 0) + threatClass (typeId (b.board s).type)

/-- The row of a threat of colour `c`. -/
def threatRow (b : ShogiBoard) (c : Color) (t : Threat) : Nat :=
  let pair := pairIndex t.tid (ownSq c t.src) (ownSq c t.dst)
  kNumSlots + ((ownerOf c b.sideToMove * kPairsPerOwner + pair) * kThreatClasses +
    targetClass b t.dst)

/-- `GroupBFeatures`. -/
def groupBFeatures (b : ShogiBoard) : List Nat :=
  colors.flatMap fun c =>
    boardSlots b b.sideToMove c ++ handSlots b b.sideToMove c ++ (threats b c).map (threatRow b c)

/-! ## Policy -/

/-- `AttackedSquares`. -/
def attackedSquares (b : ShogiBoard) (c : Color) : Bitboard :=
  (List.range kTypeIds).foldl (fun r tid =>
    (b.piecesOf c (typeFromId tid)).squares.foldl (fun r src =>
      r ||| pieceAttacks (typeFromId tid) c src b.occupied) r) .zero

/-- `flags`. -/
def policyFlags (b : ShogiBoard) (s : Square) : Nat :=
  (if (attackedSquares b (~~~b.sideToMove)).test s then 1 else 0) +
    if (attackedSquares b b.sideToMove).test s then 2 else 0

/-- `PolicyFeatures`. -/
def policyFeatures (b : ShogiBoard) : List Nat :=
  colors.flatMap fun c =>
    ((List.range kTypeIds).flatMap fun tid =>
      (b.piecesOf c (typeFromId tid)).squares.map fun s =>
        (ownerOf c b.sideToMove * kTypeIds + tid) * 81 + (frameSq b.sideToMove s).val +
          kBoardSlots * policyFlags b s) ++
    (handSlots b b.sideToMove c).map (kPolicyBoardInputs + ·)

end Nnue

end Shogi
