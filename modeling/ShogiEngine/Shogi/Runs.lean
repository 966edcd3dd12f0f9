import ShogiEngine.Library.UndoStack
import ShogiEngine.Shogi.Evasions
import ShogiEngine.Shogi.Hash

/-!
# Runs of moves and undos

Properly nested calls of `DoMove` and `UndoMove`, as the search makes them, and what they
preserve.

## Main definitions

- `calls`: moves in every mode; `plays`: moves in the full mode; `game`: generated moves
- `Playable`: both kings on the board, the side that moved last not in check
- `playedOut`, `checksInARow`: the line of moves that a board has behind it

## Main results

- `eq_of_run_calls`: after the last undo the board is as it was
- `hash_of_line`: the stored hash stays the hash from scratch
- `Playable.doMoveInternal`, `playable_of_run`: playing keeps a board playable
- `continuousCheck_playedOut`: the counters count checks in a row
-/

namespace Shogi

namespace ShogiBoard

/-! ## Nested calls in every mode -/

/-- A call of `DoMoveInternal`: the move, the mode, and what the caller knows about the check. -/
structure Call where
  move : Move
  updateAuxiliary : Bool
  givesCheck : Option Bool

/-- `DoMove` in the full and in the light mode, and `UndoMove`, on any move with an own man to move
or a square to drop on. The legal moves are among these (`canPlay_of_allowed`). -/
def calls : UndoSystem ShogiBoard Call UndoInfo where
  ok b c := b.CanPlay c.move
  act b c := b.doMoveInternal c.move c.updateAuxiliary c.givesCheck
  undo b c r := b.undoMove c.move r

/-- Nested calls, in any mix of modes, restore the whole board. -/
theorem eq_of_run_calls {b c : ShogiBoard} (hb : b.Consistent) (h : calls.Run b c []) :
    c = b := by
  have hact : ∀ t k, t.Agree → calls.ok t k → (calls.act t k).1.Agree := fun t k ha hm =>
    agree_doMoveInternal t k.move k.updateAuxiliary k.givesCheck ha hm
  have hundo : ∀ t k, t.Agree → calls.ok t k →
      calls.undo (calls.act t k).1 k (calls.act t k).2 = t := fun t k ha hm =>
    undoMove_doMoveInternal (m := k.move) (u := k.updateAuxiliary) (g := k.givesCheck) ha hm
  exact h.eq_start hact hundo hb.toAgree

/-- Black's gold steps forward. -/
def goldForward : Move := .normal (.fromIdx 43) (.fromIdx 42)

theorem allowed_goldForward : goldEnding.position.Allowed goldForward :=
  @Position.Allowed.normal _ .gold _ _ (by decide +kernel) (by decide +kernel)

/-- White's king steps sideways. -/
def kingSideways : Move := .normal (.fromIdx 36) (.fromIdx 27)

theorem allowed_kingSideways : (goldEnding.doMove goldForward).position.Allowed kingSideways :=
  @Position.Allowed.normal _ .king _ _ (by decide +kernel) (by decide +kernel)

/-- A move in the full mode, an answer in the light mode, and both taken back. -/
theorem eq_of_run_calls_goldEnding :
    let b := goldEnding.doMoveInternal goldForward true none
    let c := b.1.doMoveInternal kingSideways false none
    (c.1.undoMove kingSideways c.2).undoMove goldForward b.2 = goldEnding :=
  eq_of_run_calls consistent_goldEnding
    (.undo (.undo (.act (.act .start (show calls.ok goldEnding ⟨goldForward, true, none⟩ from
      canPlay_of_allowed allowed_goldForward)) (show calls.ok _ ⟨kingSideways, false, none⟩ from
      canPlay_of_allowed allowed_kingSideways))))

/-! ## Games -/

/-- `DoMove` and `UndoMove` in the full mode. -/
def plays : UndoSystem ShogiBoard Move UndoInfo where
  ok b m := b.CanPlay m
  act b m := b.doMoveInternal m true none
  undo b m r := b.undoMove m r

/-- `DoMove` on generated moves, and `UndoMove`. -/
def game : UndoSystem ShogiBoard Move UndoInfo where
  ok b m := m ∈ b.generateLegalMoves
  act b m := b.doMoveInternal m true none
  undo b m r := b.undoMove m r

instance (b : ShogiBoard) (m : Move) : Decidable (game.ok b m) :=
  inferInstanceAs (Decidable (m ∈ b.generateLegalMoves))

/-- A consistent board with both kings on which the side that moved last is not in check. -/
structure Playable (b : ShogiBoard) : Prop where
  consistent : b.Consistent
  kings : b.HasKings
  safe : b.inCheck (~~~b.sideToMove) = false

section Playable

variable {b : ShogiBoard} {m : Move} {u : Bool} {g : Option Bool}

theorem Playable.not_inCheck (h : b.Playable) : ¬ b.position.InCheck (~~~b.sideToMove) := by
  rw [← h.consistent.inCheck_iff h.kings, h.safe]
  exact Bool.false_ne_true

theorem Playable.legal_iff (h : b.Playable) :
    m ∈ b.generateLegalMoves ↔ b.position.Legal m := mem_generateLegalMoves h.consistent h.kings

theorem Playable.allowed (h : b.Playable) (hm : m ∈ b.generateLegalMoves) :
    b.position.Allowed m := (h.legal_iff.mp hm).allowed

theorem Playable.canPlay (h : b.Playable) (hm : m ∈ b.generateLegalMoves) : b.CanPlay m :=
  canPlay_of_allowed (h.allowed hm)

/-- A generated move never captures a king. -/
theorem Playable.not_king (h : b.Playable) (hm : m ∈ b.generateLegalMoves) :
    m.isDrop = true ∨ (b.board m.dst).type ≠ .king :=
  not_captures_king h.not_inCheck (h.allowed hm)

theorem Playable.doMoveInternal (h : b.Playable) (hm : m ∈ b.generateLegalMoves) :
    (b.doMoveInternal m u g).1.Playable := by
  refine ⟨consistent_doMoveInternal h.consistent (h.canPlay hm) (h.not_king hm),
    h.kings.doMoveInternal, ?_⟩
  rw [sideToMove_doMoveInternal, Color.compl_compl, ← Bool.not_eq_true,
    inCheck_doMoveInternal_iff h.consistent h.kings h.not_inCheck (h.allowed hm)]
  exact (h.legal_iff.mp hm).not_inCheck

theorem Playable.undoMove (h : b.Playable) (hm : m ∈ b.generateLegalMoves) :
    (b.doMoveInternal m u g).1.undoMove m (b.doMoveInternal m u g).2 = b :=
  undoMove_doMoveInternal h.consistent.toAgree (h.canPlay hm)

variable {c : ShogiBoard} {stack : List (Move × UndoInfo)}

/-- Taking back leads nowhere that playing alone does not lead. -/
theorem line_of_run (hb : b.Playable) (h : game.Run b c stack) : game.Line b c stack :=
  h.line (fun _ _ ht hm => ht.doMoveInternal hm) (fun _ _ ht hm => ht.undoMove hm) hb

theorem playable_of_run (hb : b.Playable) (h : game.Run b c stack) : c.Playable :=
  h.invariant (fun _ _ ht hm => ht.doMoveInternal hm) (fun _ _ ht hm => ht.undoMove hm) hb

end Playable

/-! ## The line behind a board -/

/-- The board after a list of moves, the last move first. -/
def playedOut (b : ShogiBoard) : List Move → ShogiBoard
  | [] => b
  | m :: ms => (b.playedOut ms).doMove m

/-- How many of the last moves of `c` gave check in a row. -/
def checksInARow (b : ShogiBoard) (c : Color) : List Move → Nat
  | [] => 0
  | m :: ms =>
    if (b.playedOut ms).sideToMove = c then
      if (b.playedOut (m :: ms)).inCheck (~~~c) then b.checksInARow c ms + 1 else 0
    else b.checksInARow c ms

section Line

variable {b c : ShogiBoard} {m : Move} {stack : List (Move × UndoInfo)}

/-- Taking back leads nowhere that playing alone does not lead. -/
theorem line_of_run_plays (hb : b.Agree) (h : plays.Run b c stack) : plays.Line b c stack :=
  h.line (fun t m ha hm => agree_doMoveInternal t m true none ha hm)
    (fun _ _ ha hm => undoMove_doMoveInternal ha hm) hb

/-- A game is a line of moves. -/
theorem plays_of_game (hb : b.Playable) (h : game.Line b c stack) : plays.Line b c stack := by
  have hok : ∀ t m, t.Playable → game.ok t m → plays.ok t m ∧ (game.act t m).1.Playable :=
    fun t m ht hm => ⟨ht.canPlay hm, ht.doMoveInternal hm⟩
  have hact : ∀ t m, game.act t m = plays.act t m := fun _ _ => rfl
  exact (h.mono hact hok hb).1

theorem eq_playedOut (h : plays.Line b c stack) : c = b.playedOut (stack.map Prod.fst) := by
  induction h with
  | start => rfl
  | act _ _ ih =>
    rw [List.map_cons, playedOut, ← ih]
    rfl

/-- Playing keeps the stored hash equal to the hash from scratch. -/
theorem hash_of_line (hb : b.Agree) (hhash : b.hash = b.scratchHash)
    (h : plays.Line b c stack) : c.hash = c.scratchHash := by
  have hact : ∀ t m, t.Agree ∧ t.hashDrift = 0#64 → plays.ok t m →
      (plays.act t m).1.Agree ∧ (plays.act t m).1.hashDrift = 0#64 := by
    rintro t m ⟨ha, hdrift⟩ hm
    exact ⟨agree_doMoveInternal t m true none ha hm,
      (hashDrift_doMoveInternal ha hm).trans hdrift⟩
  exact hash_eq_iff.mpr (h.invariant hact ⟨hb, hash_eq_iff.mp hhash⟩).2

theorem sideToMove_doMove : (b.doMove m).sideToMove = ~~~b.sideToMove :=
  sideToMove_doMoveInternal b m true none

/-- The counters after a move. -/
theorem continuousCheck_doMove : (b.doMove m).continuousCheck =
    Function.update b.continuousCheck b.sideToMove
      (if (b.doMove m).inCheck (~~~b.sideToMove) then b.continuousCheck b.sideToMove + 2 else 0) :=
  continuousCheck_doMoveInternal_true b m none

/-- The counter of each side is twice the number of its last moves in a row that gave check. -/
theorem continuousCheck_playedOut (hb : ∀ c, b.continuousCheck c = 0) (c : Color)
    (ms : List Move) : (b.playedOut ms).continuousCheck c = 2 * b.checksInARow c ms := by
  induction ms with
  | nil => exact hb c
  | cons m ms ih =>
    rw [checksInARow, playedOut, continuousCheck_doMove]
    by_cases hc : (b.playedOut ms).sideToMove = c
    · rw [if_pos hc, hc, Function.update_self, ih]
      split
      · push_cast
        ring
      · rfl
    · rw [if_neg hc, Function.update_of_ne (Ne.symm hc), ih]

end Line

end ShogiBoard

end Shogi
