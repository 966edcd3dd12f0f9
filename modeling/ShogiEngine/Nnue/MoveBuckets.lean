import ShogiEngine.Nnue.Features
import ShogiEngine.Shogi.See

/-!
# Move buckets

The rows of the policy for moves: plain moves, promotions and drops, each with a dense number, and
the bit that tells whether the exchange on the destination loses more than a pawn.

## Main definitions

- `moveBucket`, `moveSeeGood`, `moveBucketSee`: the source's functions
- `plainDest`, `promoDest`, `dropDest` with their offsets: the tables
-/

namespace Shogi

namespace Nnue

open ShogiBoard

def kPlainBuckets : Nat := 8115

def kPromoBuckets : Nat := 1397

def kDropBuckets : Nat := 531

def kNumBuckets : Nat := kPlainBuckets + kPromoBuckets + kDropBuckets

def kSeeThreshold : Int := -90

/-- `g_b.plain_dest`: without the squares where the man could not stand unpromoted. -/
def plainDest (tid : Nat) (s : Square) : Bitboard :=
  let dest := emptyBoardReach tid s
  if tid = 1 ∨ tid = 2 then dest &&& ~~~rankBB 0
  else if tid = 3 then dest &&& ~~~(rankBB 0 ||| rankBB 1)
  else dest

/-- `g_b.promo_dest`. -/
def promoDest (tid : Nat) (s : Square) : Bitboard :=
  if 1 ≤ tid ∧ tid ≤ 6 then
    if (promotionZoneBB .black).test s then emptyBoardReach tid s
    else emptyBoardReach tid s &&& promotionZoneBB .black
  else .zero

/-- `g_b.drop_dest`. -/
def dropDest (h : Nat) : Bitboard :=
  if h = 0 ∨ h = 1 then .all &&& ~~~rankBB 0
  else if h = 2 then .all &&& ~~~(rankBB 0 ||| rankBB 1)
  else .all

/-- `running` in the three loops, after `i` tables. -/
def plainBefore : Nat → Nat :=
  PrefixSums.before fun i => (plainDest (i / 81) (.fromIdx i)).popCount

def promoBefore : Nat → Nat :=
  PrefixSums.before fun i => (promoDest (i / 81) (.fromIdx i)).popCount

def dropBefore : Nat → Nat := PrefixSums.before fun h => (dropDest h).popCount

/-- `g_b.plain_off`. -/
def plainOff (tid : Nat) (s : Square) : Nat := plainBefore (tid * 81 + s.val)

/-- `g_b.promo_off`. -/
def promoOff (tid : Nat) (s : Square) : Nat :=
  plainBefore (kTypeIds * 81) + promoBefore (tid * 81 + s.val)

/-- `g_b.drop_off`. -/
def dropOff (h : Nat) : Nat :=
  plainBefore (kTypeIds * 81) + promoBefore (kTypeIds * 81) + dropBefore h

/-- `MoveBucket`. -/
def moveBucket (b : ShogiBoard) (m : Move) : Nat :=
  let stm := b.sideToMove
  let dst := ownSq stm m.dst
  match m with
  | .drop pt _ =>
    let h := pt.idx - 1
    dropOff h + rankIn (dropDest h) dst
  | .normal src _ =>
    let tid := typeId (b.board src).type
    plainOff tid (ownSq stm src) + rankIn (plainDest tid (ownSq stm src)) dst
  | .promotion src _ =>
    let tid := typeId (b.board src).type
    promoOff tid (ownSq stm src) + rankIn (promoDest tid (ownSq stm src)) dst

/-- `MoveSeeGood`. -/
def moveSeeGood (b : ShogiBoard) (m : Move) : Bool := b.seeGe m kSeeThreshold

/-- `MoveBucketSee`. -/
def moveBucketSee (b : ShogiBoard) (m : Move) : Nat :=
  moveBucket b m + if moveSeeGood b m then kNumBuckets else 0

end Nnue

end Shogi
