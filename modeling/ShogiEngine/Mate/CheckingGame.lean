import ShogiEngine.Library.AttackGame
import ShogiEngine.Shogi.CheckMoves
import ShogiEngine.Shogi.Repetition
import ShogiEngine.Shogi.Runs

/-!
# The checking game

The game that the mate solvers search: the side to move gives check with every legal move, the
other side answers with any legal move, and `CheckRepetition` adjudicates after every move.

## Main definitions

- `checkingGame`: the game on boards with their histories

## Main results

- `Playable.attack_iff`, `Playable.reply_iff`: the moves of the game are the generated ones
- `Playable.checkmate_iff`: `HasLegalEvasion` decides mate
-/

namespace Shogi

namespace ShogiBoard

/-- The mate solvers look back this far for repetitions. -/
def repetitionLookbackPly : Int := 16

/-- The answer of `CheckRepetition` to the mate solvers. -/
def repetition (b : ShogiBoard) : RepetitionResult := (b.checkRepetition repetitionLookbackPly).1

/-- The checking game. After a check the opponent is to move, and a loss for him is a win for the
attacker; after an evasion the attacker is to move himself. -/
def checkingGame : AttackGame ShogiBoard where
  attack b c := ∃ m, b.position.Legal m ∧ c = b.doMove m ∧ c.position.InCheck c.sideToMove
  reply b c := ∃ m, b.position.Legal m ∧ c = b.doMove m
  attackWins c := c.position.Checkmate ∨ c.repetition = .loss
  attackOpen c := c.repetition = .none
  replyLoses c := c.repetition = .win
  replyOpen c := c.repetition = .none

section DoMove

variable {b : ShogiBoard} {m : Move}

/-- What `DoMove` reports about the check. -/
theorem gaveCheck_doMove : (b.doMoveInternal m true none).2.gaveCheck =
    (b.doMove m).inCheck (b.doMove m).sideToMove := rfl

/-- `DoMove` may be told that a check is one. -/
theorem doMove_some_true (h : (b.doMove m).inCheck (b.doMove m).sideToMove = true) :
    (b.doMoveInternal m true (some true)).1 = b.doMove m := by
  rw [← gaveCheck_doMove] at h
  simp only [doMoveInternal, if_true, Option.getD_none] at h
  simp only [doMove, doMoveInternal, if_true, Option.getD_some, Option.getD_none, h]

end DoMove

section Playable

variable {b : ShogiBoard} {m : Move}

theorem Playable.attacker (h : b.Playable) : b.Attacker :=
  ⟨h.consistent, h.kings, h.not_inCheck⟩

theorem Playable.doMove (h : b.Playable) (hm : b.position.Legal m) : (b.doMove m).Playable :=
  h.doMoveInternal (h.legal_iff.mpr hm)

theorem Playable.inCheck_iff (h : b.Playable) {c : Color} :
    b.inCheck c = true ↔ b.position.InCheck c := h.consistent.inCheck_iff h.kings

/-- The checks that the solvers try are the attacks of the game. -/
theorem Playable.mem_checkingMoves (h : b.Playable) : m ∈ b.generateCheckingMoves ↔
    b.position.Legal m ∧ (b.doMove m).position.InCheck (b.doMove m).sideToMove := by
  rw [h.attacker.mem_generateCheckingMoves]
  refine and_congr_right fun hm => ?_
  rw [← (h.doMove hm).inCheck_iff, sideToMove_doMove]
  exact (inCheck_doMoveInternal_iff h.consistent h.kings h.not_inCheck hm.allowed).symm

/-- Where the attacker is not in check himself, both generators agree. -/
theorem generateCheckingMoves_eq_nonCheck (hcheck : b.inCheck b.sideToMove = false) :
    b.generateCheckingMoves = b.generateCheckingMovesNonCheck := by
  rw [generateCheckingMoves, hcheck]
  rfl

/-- The evasions that the solvers try are the replies of the game. -/
theorem Playable.mem_evasionMoves (h : b.Playable) (hcheck : b.inCheck b.sideToMove = true) :
    m ∈ b.generateEvasionMoves ↔ b.position.Legal m :=
  mem_generateEvasionMoves h.consistent h.kings (h.inCheck_iff.mp hcheck)

/-- A side in check is mated iff `HasLegalEvasion` finds nothing. -/
theorem Playable.checkmate_iff (h : b.Playable) (hcheck : b.inCheck b.sideToMove = true) :
    b.position.Checkmate ↔ b.hasLegalEvasion = false := by
  have hcheck' : b.position.InCheck b.sideToMove := h.inCheck_iff.mp hcheck
  rw [← Bool.not_eq_true, hasLegalEvasion_iff h.consistent h.kings hcheck', not_exists]
  exact and_iff_right hcheck'

/-- A side in check is mated iff `GenerateEvasionMoves` returns nothing. -/
theorem Playable.checkmate_iff_nil (h : b.Playable) (hcheck : b.inCheck b.sideToMove = true) :
    b.position.Checkmate ↔ b.generateEvasionMoves = [] := by
  rw [List.eq_nil_iff_forall_not_mem]
  simp only [h.mem_evasionMoves hcheck]
  exact and_iff_right (h.inCheck_iff.mp hcheck)

end Playable

end ShogiBoard

end Shogi
