import ShogiEngine.Mate.ShallowMate
import ShogiEngine.Mcts.UctSearch

/-!
# The search on shogi boards

`CanDeclareWin`, and the answers of a `ShogiBoard` to the questions of the search.

## Main definitions

- `ShogiBoard.canDeclareWin`: the entering-king declaration
- `searchRules`: the rules of the search
- `goldStart`: the start of a small search

## Main results

- `exists_hasValue_searchRules`: the ply limit gives every board a value
-/

namespace Shogi

/-! ## The declaration -/

structure EnteringKingInfo where
  points : Int
  piecesInCamp : Int
  kingInCamp : Bool
  deriving DecidableEq, Repr

namespace ShogiBoard

variable (b : ShogiBoard)

/-- `ComputeEnteringKingInfo`. -/
def computeEnteringKingInfo (c : Color) : EnteringKingInfo :=
  let enemyCamp := promotionZoneBB c
  let kingInCamp := (b.kingSq c).any enemyCamp.test
  let ourInCamp := b.pieces c &&& enemyCamp
  let totalInCamp : Int := ourInCamp.popCount
  let piecesInCamp := if kingInCamp then totalInCamp - 1 else totalInCamp
  let majorInCamp := ourInCamp &&&
    (b.byType .bishop ||| b.byType .rook ||| b.byType .horse ||| b.byType .dragon)
  let majorCount : Int := majorInCamp.popCount
  let minorCount := piecesInCamp - majorCount
  let h := b.hand c
  { points := majorCount * 5 + minorCount +
      (h.count .pawn + h.count .lance + h.count .knight + h.count .silver + h.count .gold) +
      (h.count .bishop + h.count .rook) * 5
    piecesInCamp
    kingInCamp }

/-- `CanDeclareWin`. -/
def canDeclareWin : Bool :=
  let us := b.sideToMove
  if b.inCheck us then false
  else
    let info := b.computeEnteringKingInfo us
    let threshold : Int := if us = .black then 28 else 27
    if !info.kingInCamp then false
    else if info.piecesInCamp < 10 then false
    else if info.points < threshold then false
    else true

end ShogiBoard

namespace Mcts

/-! ## The rules -/

/-- The limits of `SearchConfig` that bear on verdicts and values. -/
structure SearchConfig where
  drawValueBlack : Num
  drawValueWhite : Num
  maxMovesToDraw : Int
  leafMateDepth : Int
  useButterfly : Bool

/-- `DrawValue`. -/
def SearchConfig.drawValue (cfg : SearchConfig) (c : Color) : Num :=
  if c = .black then cfg.drawValueBlack else cfg.drawValueWhite

/-- `HasMateWithin` without limits. -/
def hasMateWithin (findMateInOneNonCheck : ShogiBoard → Option Move) (depth : Int)
    (b : ShogiBoard) : Bool :=
  ((ShallowMate.Env.hasMateWithin ⟨none, findMateInOneNonCheck⟩ depth).run
    ⟨b, ⟨false, 0#32, 0⟩⟩).1

/-- The board as the search sees it. -/
def searchRules (findMateInOneNonCheck : ShogiBoard → Option Move) (cfg : SearchConfig) :
    Rules ShogiBoard Move where
  canDeclareWin := ShogiBoard.canDeclareWin
  checkRepetition b := (b.checkRepetition 0).1
  ply := ShogiBoard.ply
  maxMovesToDraw := cfg.maxMovesToDraw
  generateLegalMoves := ShogiBoard.generateLegalMoves
  inCheck b := b.inCheck b.sideToMove
  generateEvasionMoves := ShogiBoard.generateEvasionMoves
  hasMate b := decide (0 < cfg.leafMateDepth) &&
    hasMateWithin findMateInOneNonCheck cfg.leafMateDepth b
  doMove := ShogiBoard.doMove
  drawValue b := cfg.drawValue (~~~b.sideToMove)
  mutexIndex b := (b.hash &&& 65535#64).toNat
  useButterfly := cfg.useButterfly

/-- A position without a verdict is within the ply limit. -/
theorem Rules.ply_le_of_verdict {P M : Type} {R : Rules P M} {p : P} (h : R.verdict p = none) :
    R.ply p ≤ R.maxMovesToDraw := by
  by_contra hlt
  unfold Rules.verdict at h
  have hadj : R.adjudicate p false ≠ none := by
    unfold Rules.adjudicate
    by_cases hdeclare : R.canDeclareWin p = true
    · rw [if_pos hdeclare]
      exact Option.some_ne_none _
    by_cases hrep : R.getSearchRepetitionResult p false ≠ .none
    · rw [if_neg hdeclare, if_pos hrep]
      cases hcase : R.getSearchRepetitionResult p false with
      | none => exact absurd hcase hrep
      | draw => exact Option.some_ne_none _
      | win => exact Option.some_ne_none _
      | loss => exact Option.some_ne_none _
    · rw [if_neg hdeclare, if_neg hrep, if_pos (not_le.mp hlt)]
      exact Option.some_ne_none _
  rw [if_pos hadj, Option.map_eq_none_iff] at h
  exact hadj h

/-- Every board has a value. -/
theorem exists_hasValue_searchRules (f : ShogiBoard → Option Move) (cfg : SearchConfig)
    (b : ShogiBoard) : ∃ o, (searchRules f cfg).game.HasValue b o := by
  refine Negamax.exists_hasValue (r := fun b => (cfg.maxMovesToDraw + 1 - b.ply).toNat) ?_ b
  intro b m hv _
  have hle : b.ply ≤ cfg.maxMovesToDraw := Rules.ply_le_of_verdict hv
  have hply : (b.doMove m).ply = b.ply + 1 := b.ply_doMoveInternal m true none
  change (cfg.maxMovesToDraw + 1 - (b.doMove m).ply).toNat < _
  omega

/-! ## A small search -/

/-- Two kings and a gold, with the default limits; `FindMateInOneNonCheck` finds nothing. -/
def goldRules : Rules ShogiBoard Move :=
  searchRules (fun _ => none) ⟨some (1 / 2), some (1 / 2), 100000, 5, false⟩

/-- Unvisited children of an unvisited node are ranked by their priors. -/
def priorOps : PuctOps ℚ := ⟨-1, fun _ _ _ _ _ x => x.getD 0, fun x y => x < y⟩

/-- Two threads start on a new tree. -/
def goldStart : Threads.Config (Fin 2) (Memory (Fin 2) ShogiBoard Move) (Pc ShogiBoard ℚ) :=
  startSearch goldRules (.new ShogiBoard.goldEnding) 0 (fun _ => some (1 / 9)) (some 0)

theorem grown_new_goldEnding : Grown goldRules priorOps
    (.new ShogiBoard.goldEnding : Memory (Fin 2) ShogiBoard Move) 0 :=
  .new _

end Mcts

end Shogi
