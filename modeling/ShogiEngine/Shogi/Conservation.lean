import ShogiEngine.Rules.Material
import ShogiEngine.Shogi.Runs

/-!
# Conservation of the men

Along every run of moves the men of each base type stay the same, so that no count of a hand
outgrows its field and `Dominates` compares the counts.

## Main definitions

- `WithinSet`: no more men than a complete shogi set has
- `sparing`: runs in which no king is captured

## Main results

- `conserved_of_run`: the totals, the fields of the hands and their comparison along a run
-/

namespace Shogi

namespace ShogiBoard

/-- `kPhysicalPieceCounts`: physical piece totals in a complete shogi set. -/
def kPhysicalPieceCounts : PieceType → Nat
  | .pawn => 18
  | .lance => 4
  | .knight => 4
  | .silver => 4
  | .bishop => 2
  | .rook => 2
  | .gold => 4
  | _ => 0

/-- The men of a base type, promoted or not, on the board and in both hands. -/
def total (b : ShogiBoard) (pt : PieceType) : Nat := b.position.total pt

/-- No more men than a complete set has, and nothing but counts in the words of the hands. -/
structure WithinSet (b : ShogiBoard) : Prop where
  total_le : ∀ pt, pt.isHandPiece = true → b.total pt ≤ kPhysicalPieceCounts pt
  clean : ∀ c, (b.hand c).Clean

/-- `DoMove` on moves of the rules that capture no king, and `UndoMove`. The legal moves are among
the moves of the rules (`Position.Legal.allowed`), and where the side not to move is not in check
they capture no king (`not_captures_king`). -/
def sparing : UndoSystem ShogiBoard Move UndoInfo where
  ok b m := b.position.Allowed m ∧ (m.isDrop = true ∨ (b.board m.dst).type ≠ .king)
  act b m := b.doMoveInternal m true none
  undo b m r := b.undoMove m r

theorem lt_two_pow_kWidth {pt : PieceType} (h : pt.isHandPiece = true) :
    kPhysicalPieceCounts pt < 2 ^ Hand.kWidth pt := by
  revert h
  cases pt <;> decide

section Step

variable {b : ShogiBoard} {m : Move}

theorem WithinSet.count_le (hset : b.WithinSet) (c : Color) {pt : PieceType}
    (hp : pt.isHandPiece = true) : (b.hand c).count pt ≤ kPhysicalPieceCounts pt := by
  have hle := hset.total_le pt hp
  have htotal : b.total pt = b.position.onBoard pt + (b.hand c).count pt +
      (b.hand (~~~c)).count pt := Position.total_eq c
  omega

/-- What a move of the rules captures, if it is no king. -/
theorem captured_spec (ha : b.Agree) (hking : m.isDrop = true ∨ (b.board m.dst).type ≠ .king)
    (hm : b.position.Allowed m) :
    ∀ q, b.position.man m.dst = some q → q.type.isValid = true ∧ q.type ≠ .king := by
  intro q hq
  cases hm with
  | @drop pt t able held empty stay single =>
    have hnone : b.position.man (Move.drop pt t).dst = none := empty
    rw [hnone] at hq
    cases hq
  | _ =>
    rw [man_eq] at hq
    split at hq
    · cases hq
    · rename_i hne
      cases hq
      exact ⟨ha.valid _ hne, hking.resolve_left Bool.false_ne_true⟩

/-- Where there are no more men than in a set, every hand has room for the man a move captures. -/
theorem hasRoom_of_total_le (htotal : ∀ pt, pt.isHandPiece = true → b.total pt ≤ kPhysicalPieceCounts pt)
    (hking : m.isDrop = true ∨ (b.board m.dst).type ≠ .king) (hm : b.position.Allowed m) :
    b.HasRoom m := by
  have hroom : ∀ t, b.board t ≠ .none → (b.board t).type ≠ .king →
      (b.board t).type.unpromote.isHandPiece = true →
      (b.hand b.sideToMove).count (b.board t).type.unpromote + 1 <
        2 ^ Hand.kWidth (b.board t).type.unpromote := by
    intro t ht hk hp
    -- the captured man is still counted on the board
    have hworth : Position.worth (b.board t).type.unpromote (b.position.man t) ≤
        b.position.onBoard (b.board t).type.unpromote := Position.worth_le_onBoard t
    have hone : Position.worth (b.board t).type.unpromote (b.position.man t) = 1 := by
      rw [man_eq, if_neg ht]
      simp only [Position.worth, PieceType.base_of_ne_king hk, if_true]
    have hle := htotal _ hp
    have htotal : b.total (b.board t).type.unpromote = _ := Position.total_eq b.sideToMove
    have hlt := lt_two_pow_kWidth hp
    change _ = _ + (b.hand b.sideToMove).count _ + _ at htotal
    omega
  cases hm with
  | normal goes stay => exact fun ht => hroom _ ht (hking.resolve_left Bool.false_ne_true)
  | promotion goes able zone => exact fun ht => hroom _ ht (hking.resolve_left Bool.false_ne_true)
  | drop able held empty stay single => exact held

theorem WithinSet.hasRoom (hset : b.WithinSet)
    (hking : m.isDrop = true ∨ (b.board m.dst).type ≠ .king) (hm : b.position.Allowed m) :
    b.HasRoom m := hasRoom_of_total_le hset.total_le hking hm

/-- A move keeps the totals. -/
theorem total_doMove_of_total_le
    (htotal : ∀ pt, pt.isHandPiece = true → b.total pt ≤ kPhysicalPieceCounts pt) (ha : b.Agree)
    (hking : m.isDrop = true ∨ (b.board m.dst).type ≠ .king) (hm : b.position.Allowed m)
    (pt : PieceType) : (b.doMoveInternal m true none).1.total pt = b.total pt := by
  rw [total, position_doMoveInternal ha (canPlay_of_allowed hm) (hasRoom_of_total_le htotal hking hm),
    Position.total_play hm (captured_spec ha hking hm), total]

theorem WithinSet.total_doMove (hset : b.WithinSet) (ha : b.Agree)
    (hking : m.isDrop = true ∨ (b.board m.dst).type ≠ .king) (hm : b.position.Allowed m)
    (pt : PieceType) : (b.doMoveInternal m true none).1.total pt = b.total pt :=
  total_doMove_of_total_le hset.total_le ha hking hm pt

/-- A move leaves the words of the hands clean. -/
theorem WithinSet.clean_doMove (hset : b.WithinSet)
    (hking : m.isDrop = true ∨ (b.board m.dst).type ≠ .king) (hm : b.position.Allowed m)
    (c : Color) : ((b.doMoveInternal m true none).1.hand c).Clean := by
  have hroom := hset.hasRoom hking hm
  have hcapture : ∀ s t p, (b.board t ≠ .none →
      (b.board t).type.unpromote.isHandPiece = true →
      (b.hand b.sideToMove).count (b.board t).type.unpromote + 1 <
        2 ^ Hand.kWidth (b.board t).type.unpromote) →
      ((b.doBoardMove true s t p).hand c).Clean := by
    intro s t p hroom
    rw [hand_doBoardMove, hand_doCapture]
    split
    · exact hset.clean c
    · rename_i ht
      rw [Function.update_apply]
      split
      · exact (hset.clean _).add (hroom ht)
      · exact hset.clean c
  rw [hand_doMoveInternal]
  cases m with
  | normal s t => exact hcapture s t false hroom
  | promotion s t => exact hcapture s t true hroom
  | drop pt t =>
    have happ : (b.applyMove (.drop pt t) true).hand =
        Function.update b.hand b.sideToMove ((b.hand b.sideToMove).sub pt) := rfl
    rw [happ, Function.update_apply]
    split
    · exact (hset.clean _).sub hroom
    · exact hset.clean c

end Step

section Run

variable {s b : ShogiBoard} {stack : List (Move × UndoInfo)}

/-- What a run of sparing moves keeps. -/
structure Conserved (s b : ShogiBoard) : Prop where
  agree : b.Agree
  within : b.WithinSet
  total : ∀ pt, b.total pt = s.total pt

theorem Conserved.doMove {m : Move} (h : Conserved s b) (hm : sparing.ok b m) :
    Conserved s (sparing.act b m).1 := by
  obtain ⟨ha, hking⟩ := hm
  have htotal := h.within.total_doMove h.agree hking ha
  refine ⟨agree_doMoveInternal b m true none h.agree (canPlay_of_allowed ha), ⟨?_, ?_⟩, ?_⟩
  · exact fun pt hp => (htotal pt).trans_le (h.within.total_le pt hp)
  · exact h.within.clean_doMove hking ha
  · exact fun pt => (htotal pt).trans (h.total pt)

theorem conserved_run (hs : s.Consistent) (hset : s.WithinSet) (h : sparing.Run s b stack) :
    Conserved s b := by
  have hundo : ∀ t m, Conserved s t → sparing.ok t m →
      sparing.undo (sparing.act t m).1 m (sparing.act t m).2 = t :=
    fun t m ht hm => undoMove_doMoveInternal ht.agree (canPlay_of_allowed hm.1)
  exact h.invariant (fun _ _ ht hm => ht.doMove hm) hundo ⟨hs.toAgree, hset, fun _ => rfl⟩

/-- Every run of moves that captures no king, from a board within the physical set, keeps the men
of each base type and never carries out of a field of a hand; and the hands of any two boards that
such runs reach are compared by `Dominates` count by count. -/
theorem conserved_of_run (hs : s.Consistent) (hset : s.WithinSet) (h : sparing.Run s b stack) :
    (∀ pt, b.total pt = s.total pt) ∧
      (∀ c, (b.hand c).Clean) ∧
      ∀ (s' b' : ShogiBoard) (stack' : List (Move × UndoInfo)), s'.Consistent → s'.WithinSet →
        sparing.Run s' b' stack' → ∀ c c',
          ((b.hand c).dominates (b'.hand c') = true ↔
            ∀ pt, (b'.hand c').count pt ≤ (b.hand c).count pt) := by
  have hb := conserved_run hs hset h
  refine ⟨hb.total, hb.within.clean, fun s' b' stack' hs' hset' h' c c' => ?_⟩
  exact Hand.dominates_iff (hb.within.clean c) ((conserved_run hs' hset' h').within.clean c')

/-- Black's gold can capture a pawn. -/
def goldMeetsPawn : ShogiBoard := goldEnding.putPiece (.fromIdx 42) ⟨.white, .pawn⟩

theorem consistent_goldMeetsPawn : goldMeetsPawn.Consistent :=
  consistent_goldEnding.putPiece rfl rfl fun h => by cases h

theorem withinSet_goldMeetsPawn : goldMeetsPawn.WithinSet :=
  ⟨by decide +kernel, fun _ => Hand.clean_empty⟩

theorem allowed_goldMeetsPawn : goldMeetsPawn.position.Allowed goldForward :=
  @Position.Allowed.normal _ .gold _ _ (by decide +kernel) (by decide +kernel)

/-- The captured pawn is in Black's hand, which then dominates White's. -/
theorem conserved_of_run_goldMeetsPawn :
    let b := (goldMeetsPawn.doMoveInternal goldForward true none).1
    (∀ pt, b.total pt = goldMeetsPawn.total pt) ∧
      ((b.hand .black).dominates (b.hand .white) = true ↔
        ∀ pt, (b.hand .white).count pt ≤ (b.hand .black).count pt) := by
  have hok : sparing.ok goldMeetsPawn goldForward :=
    ⟨allowed_goldMeetsPawn, Or.inr (by decide +kernel)⟩
  have hrun := conserved_of_run consistent_goldMeetsPawn withinSet_goldMeetsPawn
    (.act .start hok)
  exact ⟨hrun.1, hrun.2.2 _ _ _ consistent_goldMeetsPawn withinSet_goldMeetsPawn
    (.act .start hok) .black .white⟩

end Run

end ShogiBoard

end Shogi
