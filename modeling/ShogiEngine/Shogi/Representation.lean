import ShogiEngine.Shogi.PackedSfen
import ShogiEngine.Shogi.Runs

/-!
# The representation along a game

What the redundant fields of a board say, from a set-up through any game with moves taken back.

## Main definitions

- `SetUp`: the boards that come out of a packed or a well-formed SFEN
- `Represented`: the fields agree with the mailbox and with the line of moves

## Main results

- `represented_of_run`: they do so in every game from a legal set-up
- `not_represented_of_capture`: a set-up in which a king can be captured is different
-/

namespace Shogi

namespace ShogiBoard

/-- A successful `SetFromPackedSfen`, or `SetFromSfen` of a well-formed SFEN. -/
def SetUp (b : ShogiBoard) : Prop :=
  (∃ p gamePly, setFromPackedSfen p gamePly = some b) ∨
    ∃ sfen, WellFormedSfen sfen ∧ setFromSfen sfen = .ok b

theorem SetUp.fresh {b : ShogiBoard} (h : b.SetUp) : b.Fresh := by
  rcases h with ⟨p, gamePly, h⟩ | ⟨sfen, hs, h⟩
  · exact fresh_of_setFromPackedSfen h
  · exact fresh_of_setFromSfen hs h

/-- The redundant fields of `b`, reached from `s` by `moves` (the last move first). -/
structure Represented (s b : ShogiBoard) (moves : List Move) : Prop where
  byColor : ∀ c x, x ∈ b.byColor c ↔ b.board x ≠ .none ∧ (b.board x).color = c
  byType : ∀ pt x, x ∈ b.byType pt ↔ b.board x ≠ .none ∧ (b.board x).type = pt
  disjoint : ∀ x, ¬ (x ∈ b.byColor .black ∧ x ∈ b.byColor .white)
  union : ∀ x, x ∈ b.occupied ↔ b.board x ≠ .none
  kingSq : ∀ c, ∃ k, b.kingSq c = some k ∧ ∀ x, b.board x = ⟨c, .king⟩ ↔ x = k
  continuousCheck : ∀ c, b.continuousCheck c = 2 * s.checksInARow c moves
  hash : b.hash = b.scratchHash

section Represented

variable {s b : ShogiBoard} {stack : List (Move × UndoInfo)}

theorem Agree.disjoint (h : b.Agree) (x : Square) :
    ¬ (x ∈ b.byColor .black ∧ x ∈ b.byColor .white) := by
  rw [h.color_mem, h.color_mem]
  rintro ⟨⟨-, h1⟩, -, h2⟩
  rw [h1] at h2
  cases h2

theorem Agree.mem_occupied_iff (h : b.Agree) (x : Square) :
    x ∈ b.occupied ↔ b.board x ≠ .none := by
  rw [h.mem_occupied, Position.Occupied, man_eq]
  split <;> simp_all

/-- From a set-up with both kings, in which the side not to move is not in check, all redundant
fields are as they should be in every game. -/
theorem represented_of_run (hs : s.SetUp) (hk : s.HasKings)
    (hsafe : s.inCheck (~~~s.sideToMove) = false) (h : game.Run s b stack) :
    Represented s b (stack.map Prod.fst) := by
  have hfresh := hs.fresh
  have hplay : s.Playable := ⟨hfresh.consistent, hk, hsafe⟩
  have hline := plays_of_game hplay (line_of_run hplay h)
  have hb := playable_of_run hplay h
  have hagree := hb.consistent.toAgree
  refine ⟨hagree.color_mem, hagree.type_mem, hagree.disjoint, hagree.mem_occupied_iff,
    fun c => ⟨b.kingSquare c, hb.kings.kingSq_eq c, fun x => ?_⟩, fun c => ?_, ?_⟩
  · rw [← men_iff_of_isValid rfl]
    exact hb.consistent.kingAt hb.kings c x
  · rw [eq_playedOut hline]
    exact continuousCheck_playedOut hfresh.continuousCheck c _
  · exact hash_of_line hfresh.consistent.toAgree hfresh.hash hline

end Represented

/-- White's king stands alone: `4k4/9/9/9/9/9/9/4G4/4K4 b - 1`. -/
def loneKingSfen : List Char :=
  ['4', 'k', '4', '/', '9', '/', '9', '/', '9', '/', '9', '/', '9', '/', '9', '/', '4', 'G', '4',
    '/', '4', 'K', '4', ' ', 'b', ' ', '-', ' ', '1']

/-- The board that it sets up. -/
def loneKing : ShogiBoard := (setFromSfen loneKingSfen).toOption.getD .new

theorem setUp_loneKing : loneKing.SetUp := by
  refine Or.inr ⟨loneKingSfen, ⟨⟨?_, ?_, ?_, ?_, ?_⟩, ?_⟩, rfl⟩
  · exact [.gap 4, .man .white .king, .gap 4] :: List.replicate 6 [.gap 9] ++
      [[.gap 4, .man .black .gold, .gap 4], [.gap 4, .man .black .king, .gap 4]]
  · rfl
  · decide
  · decide
  · decide
  · rfl

theorem hasKings_loneKing : loneKing.HasKings := by
  intro c
  cases c <;> rfl

/-- The gold steps forward, the king sideways, and the king's move is taken back. -/
theorem represented_loneKing :
    let b := loneKing.doMoveInternal goldForward true none
    let c := b.1.doMoveInternal kingSideways true none
    Represented loneKing (c.1.undoMove kingSideways c.2) [goldForward] :=
  represented_of_run setUp_loneKing hasKings_loneKing (by decide +kernel)
    (.undo (.act (.act .start (show game.ok loneKing goldForward by decide +kernel))
      (show game.ok _ kingSideways by decide +kernel)))

/-! ## A king that can be captured -/

/-- White's king faces a rook, and Black is to move: `4k4/4R4/9/9/9/9/9/9/4K4 b - 1`. -/
def kingHangingSfen : List Char :=
  ['4', 'k', '4', '/', '4', 'R', '4', '/', '9', '/', '9', '/', '9', '/', '9', '/', '9', '/', '9',
    '/', '4', 'K', '4', ' ', 'b', ' ', '-', ' ', '1']

/-- The board that it sets up. -/
def kingHanging : ShogiBoard := (setFromSfen kingHangingSfen).toOption.getD .new

/-- The rook captures the king. -/
def captureKing : Move := .normal (.fromIdx 37) (.fromIdx 36)

theorem setUp_kingHanging : kingHanging.SetUp := by
  refine Or.inr ⟨kingHangingSfen, ⟨⟨?_, ?_, ?_, ?_, ?_⟩, ?_⟩, rfl⟩
  · exact [.gap 4, .man .white .king, .gap 4] :: [.gap 4, .man .black .rook, .gap 4] ::
      List.replicate 6 [.gap 9] ++ [[.gap 4, .man .black .king, .gap 4]]
  · rfl
  · decide
  · decide
  · decide
  · rfl

/-- Without the condition on the side not to move, White's king can be captured, and then White's
king square names a square that holds no king. -/
theorem not_represented_of_capture : ¬ ∀ s : ShogiBoard, s.SetUp → ∀ b stack, game.Run s b stack →
    Represented s b (stack.map Prod.fst) := by
  intro h
  have hm : captureKing ∈ kingHanging.generateLegalMoves := by decide +kernel
  have hrep := h kingHanging setUp_kingHanging _ _ (.act .start (show game.ok kingHanging
    captureKing from hm))
  obtain ⟨k, -, hking⟩ := hrep.kingSq .white
  have hnone : ∀ x, (kingHanging.doMove captureKing).board x ≠ ⟨.white, .king⟩ := by
    decide +kernel
  exact hnone k ((hking k).mpr rfl)

end ShogiBoard

end Shogi
