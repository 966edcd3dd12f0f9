import ShogiEngine.Rules.Position

/-!
# Material

The men of a game, counted by what they are before promotion. A move that captures no king only
moves men between the board and the hands.

## Main definitions

- `PieceType.base`: what a man is before promotion
- `Position.total`: the men of a base type on the board and in both hands

## Main results

- `Position.total_play`: a move keeps the totals
-/

namespace Shogi

namespace PieceType

/-- What a man is before promotion. -/
def base (pt : PieceType) : PieceType := if pt = .king then .king else pt.unpromote

theorem base_promote {pt : PieceType} (h : pt.canPromote = true) : pt.promote.base = pt.base := by
  cases pt <;> first | rfl | cases h

theorem base_of_isHandPiece {pt : PieceType} (h : pt.isHandPiece = true) : pt.base = pt := by
  cases pt <;> first | rfl | cases h

theorem base_of_ne_king {pt : PieceType} (h : pt ≠ .king) : pt.base = pt.unpromote := if_neg h

theorem isHandPiece_unpromote {pt : PieceType} (h : pt.isValid = true) (hk : pt ≠ .king) :
    pt.unpromote.isHandPiece = true := by
  cases pt <;> first | rfl | exact absurd rfl hk | cases h

end PieceType

namespace Position

variable (p : Position)

/-- One for a man of base type `pt`. -/
def worth (pt : PieceType) : Option Piece → Nat
  | some q => if q.type.base = pt then 1 else 0
  | none => 0

/-- The men of base type `pt` on the board. -/
def onBoard (pt : PieceType) : Nat := ∑ s, worth pt (p.man s)

/-- The men of base type `pt` on the board and in both hands. -/
def total (pt : PieceType) : Nat := p.onBoard pt + p.hand .black pt + p.hand .white pt

variable {p} {m : Move} {pt : PieceType}

theorem total_eq (c : Color) : p.total pt = p.onBoard pt + p.hand c pt + p.hand (~~~c) pt := by
  cases c
  · rfl
  · rw [total, Color.compl_white]
    omega

theorem worth_le_onBoard (s : Square) : worth pt (p.man s) ≤ p.onBoard pt :=
  Finset.single_le_sum (f := fun s => worth pt (p.man s)) (fun _ _ => Nat.zero_le _)
    (Finset.mem_univ s)

/-- Replacing what stands on one square. -/
theorem sum_worth_update (f : Square → Option Piece) (t : Square) (v : Option Piece) :
    (∑ s, worth pt (Function.update f t v s)) + worth pt (f t) =
      (∑ s, worth pt (f s)) + worth pt v := by
  have hrest : ∑ s ∈ Finset.univ.erase t, worth pt (Function.update f t v s) =
      ∑ s ∈ Finset.univ.erase t, worth pt (f s) := by
    refine Finset.sum_congr rfl fun s hs => ?_
    rw [Function.update_of_ne (Finset.ne_of_mem_erase hs)]
  have h1 := Finset.add_sum_erase Finset.univ (fun s => worth pt (Function.update f t v s))
    (Finset.mem_univ t)
  have h2 := Finset.add_sum_erase Finset.univ (fun s => worth pt (f s)) (Finset.mem_univ t)
  simp only [Function.update_self] at h1
  omega

/-- A board move takes what stands on its destination off the board. -/
theorem Moves.onBoard_play {qt : PieceType} {s t : Square} (h : p.Moves m qt s t)
    (hworth : worth pt (p.arriving m) = worth pt (p.man s)) :
    (p.play m).onBoard pt + worth pt (p.man t) = p.onBoard pt := by
  have hman : (p.play m).man = Function.update (Function.update p.man s none) t (p.arriving m) := by
    funext u
    by_cases ht : u = t
    · rw [ht, Function.update_self, ← h.dst, man_play_dst]
    · rw [Function.update_of_ne ht]
      by_cases hs : u = s
      · rw [hs, Function.update_self, h.man_src]
      · rw [Function.update_of_ne hs, h.man_of_ne hs ht]
  have h1 := @sum_worth_update pt (Function.update p.man s none) t (p.arriving m)
  have h2 := @sum_worth_update pt p.man s none
  rw [Function.update_of_ne h.goes.ne.symm, ← hman] at h1
  have h0 : worth pt none = 0 := rfl
  rw [onBoard, onBoard]
  omega

theorem onBoard_drop {qt : PieceType} {t : Square} (ht : p.man t = none) :
    (p.play (.drop qt t)).onBoard pt = p.onBoard pt + worth pt (some ⟨p.turn, qt⟩) := by
  have hman : (p.play (.drop qt t)).man = Function.update p.man t (some ⟨p.turn, qt⟩) := by
    funext u
    by_cases hu : u = t
    · rw [hu, Function.update_self]
      exact man_play_dst
    · rw [Function.update_of_ne hu]
      exact man_play_of_ne hu fun e => by cases e
  have h := @sum_worth_update pt p.man t (some ⟨p.turn, qt⟩)
  have h0 : worth pt none = 0 := rfl
  rw [← hman, ht] at h
  rw [onBoard, onBoard]
  omega

theorem hand_play_turn : (p.play m).hand p.turn pt = p.handAfter m pt := if_pos rfl

theorem hand_play_compl : (p.play m).hand (~~~p.turn) pt = p.hand (~~~p.turn) pt :=
  if_neg (Color.compl_ne _)

/-- A captured man goes into the hand. -/
theorem handAfter_board {s t : Square}
    (hcap : ∀ q, p.man t = some q → q.type.isValid = true ∧ q.type ≠ .king) :
    p.handAfter (.normal s t) pt = p.hand p.turn pt + worth pt (p.man t) := by
  cases ht : p.man t with
  | none => simp only [handAfter, ht, worth, Nat.add_zero]
  | some q =>
    obtain ⟨hvalid, hking⟩ := hcap q ht
    have hhand := PieceType.isHandPiece_unpromote hvalid hking
    simp only [handAfter, ht, worth, PieceType.base_of_ne_king hking]
    by_cases hpt : pt = q.type.unpromote
    · simp [hpt, hhand]
    · simp [hpt, Ne.symm hpt]

/-- A move that captures no king keeps the total of every type. -/
theorem total_play (ha : p.Allowed m)
    (hcap : ∀ q, p.man m.dst = some q → q.type.isValid = true ∧ q.type ≠ .king) :
    (p.play m).total pt = p.total pt := by
  rw [total_eq p.turn, total_eq p.turn, hand_play_turn, hand_play_compl]
  cases ha with
  | @normal qt s t goes stay =>
    have hboard : (p.play (.normal s t)).onBoard pt + worth pt (p.man t) = p.onBoard pt :=
      goes.moves_normal.onBoard_play rfl
    have hhand : p.handAfter (.normal s t) pt = _ := handAfter_board hcap
    omega
  | @promotion qt s t goes able zone =>
    have hworth : worth pt (p.arriving (.promotion s t)) = worth pt (p.man s) := by
      rw [arriving, goes.man]
      simp only [Option.map, worth, Piece.promote, PieceType.base_promote able]
    have hboard := (goes.moves_promotion able).onBoard_play hworth
    have hhand : p.handAfter (.promotion s t) pt = _ := handAfter_board (s := s) hcap
    omega
  | @drop qt t able held empty stay single =>
    rw [onBoard_drop empty]
    simp only [handAfter, worth, PieceType.base_of_isHandPiece able]
    by_cases hpt : pt = qt
    · simp only [hpt, if_true]
      omega
    · simp only [hpt, Ne.symm hpt, if_false]
      omega

end Position

end Shogi
