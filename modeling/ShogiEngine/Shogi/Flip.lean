import ShogiEngine.Rules.Symmetry
import ShogiEngine.Shogi.Runs

/-!
# The flipped board

`Flipped`: the board rotated by a half turn with the colours exchanged, as the network encoder
uses it.

## Main definitions

- `flipped`: the source's function

## Main results

- `position_flipped`: it is the half turn of the position
- `flipped_spec`: consistency, the double half turn, checks and generated moves
-/

namespace Shogi

namespace ShogiBoard

/-- The rotated men, in the order in which `Flipped` puts them on the board. -/
def flippedMen (b : ShogiBoard) : List (Square × Piece) :=
  ((List.finRange 81).filter fun s => !(b.board s).isNone).map fun s =>
    (s.flipped, (b.board s).flip)

/-- `Flipped`. The hash, the check counters and the history stay those of the constructor. -/
def flipped (b : ShogiBoard) : ShogiBoard :=
  { new with
    sideToMove := ~~~b.sideToMove
    ply := b.ply
    hand := fun c => b.hand (~~~c) }.placeAll b.flippedMen

section Flip

variable {b : ShogiBoard}

theorem mem_flippedMen {m : Square × Piece} :
    m ∈ b.flippedMen ↔ ∃ s, b.board s ≠ .none ∧ m = (s.flipped, (b.board s).flip) := by
  simp only [flippedMen, List.mem_map, List.mem_filter, List.mem_finRange, true_and,
    Bool.not_eq_true', Piece.isNone_eq_false_iff]
  exact exists_congr fun s => and_congr_right fun _ => eq_comm

theorem nodup_flippedMen : (b.flippedMen.map Prod.fst).Nodup := by
  rw [flippedMen, List.map_map]
  exact ((List.nodup_finRange 81).filter _).map fun s t h => Square.flipped_inj.mp h

/-- The rotated men can be put on an empty board. -/
theorem placeable_flippedMen (ha : b.Agree) {f : ShogiBoard} (hf : f.board = fun _ => .none)
    (hk : f.kingSq = fun _ => none) : Placeable f b.flippedMen where
  nodup := nodup_flippedMen
  empty m _ := by rw [hf]
  valid m hm := by
    obtain ⟨s, hs, rfl⟩ := mem_flippedMen.mp hm
    exact ha.valid s hs
  kings := by
    refine List.Nodup.map_on ?_ ((List.Nodup.of_map _ nodup_flippedMen).filter _)
    intro x hx y hy hcolor
    simp only [List.mem_filter, decide_eq_true_eq] at hx hy
    obtain ⟨s, hs, rfl⟩ := mem_flippedMen.mp hx.1
    obtain ⟨t, ht, rfl⟩ := mem_flippedMen.mp hy.1
    have hst : s = t := by
      refine ha.king_unique (c := (b.board s).color) (Piece.ext rfl hx.2) (Piece.ext ?_ hy.2)
      exact (Color.compl_inj.mp hcolor).symm
    rw [hst]
  noKing m _ _ := by rw [hk]

theorem consistent_flipped (ha : b.Agree) : b.flipped.Consistent :=
  consistent_placeAll (consistent_new.congr rfl rfl rfl rfl) (placeable_flippedMen ha rfl rfl)

/-- The mailbox of the flipped board. -/
theorem board_flipped (s : Square) : b.flipped.board s.flipped =
    if b.board s = .none then .none else (b.board s).flip := by
  by_cases hs : b.board s = .none
  · rw [if_pos hs, flipped, board_placeAll_of_not_mem]
    · rfl
    · intro m hm he
      obtain ⟨t, ht, rfl⟩ := mem_flippedMen.mp hm
      exact ht (Square.flipped_inj.mp he ▸ hs)
  · rw [if_neg hs]
    exact board_placeAll_of_mem nodup_flippedMen (mem_flippedMen.mpr ⟨s, hs, rfl⟩)

theorem flip_ne_none {q : Piece} (h : q.type.isValid = true) : q.flip ≠ .none :=
  Piece.ne_none_of_isValid h

/-- The other fields of the flipped board. -/
theorem flipped_rest : b.flipped.hand = (fun c => b.hand (~~~c)) ∧
    b.flipped.sideToMove = ~~~b.sideToMove ∧ b.flipped.ply = b.ply ∧ b.flipped.hash = 0#64 ∧
    b.flipped.continuousCheck = (fun _ => 0) ∧ b.flipped.history = [] :=
  placeAll_rest

/-- The flipped board is the half turn of the position. -/
theorem position_flipped (ha : b.Agree) : b.flipped.position = b.position.flip := by
  obtain ⟨hhand, hside, -⟩ := flipped_rest (b := b)
  apply Position.ext
  · funext u
    have hboard := board_flipped (b := b) u.flipped
    rw [Square.flipped_flipped] at hboard
    simp only [man_eq, Position.flip, hboard]
    by_cases hu : b.board u.flipped = .none
    · simp [hu]
    · simp [hu, flip_ne_none (ha.valid _ hu)]
  · funext c pt
    exact congrArg (fun h : Color → Hand => (h c).count pt) hhand
  · exact hside

theorem hasKings_flipped (hb : b.Consistent) (hk : b.HasKings) : b.flipped.HasKings := by
  intro c
  have hking := hb.king_board (~~~c) _ (hk.kingSq_eq (~~~c))
  have hne : b.board (b.kingSquare (~~~c)) ≠ .none := by
    rw [hking]
    exact Piece.ne_none_of_isValid rfl
  have hboard := board_flipped (b := b) (b.kingSquare (~~~c))
  rw [if_neg hne, hking] at hboard
  rw [(consistent_flipped hb.toAgree).king_sq c _ (hboard.trans _)]
  · rfl
  · simp [Piece.flip]

/-- The men decide the king squares of a consistent board. -/
theorem Consistent.kingSq_eq {b' : ShogiBoard} (hb : b.Consistent) (hb' : b'.Consistent)
    (h : b.board = b'.board) : b.kingSq = b'.kingSq := by
  funext c
  apply Option.ext
  intro k
  constructor
  · exact fun hk => hb'.king_sq c k (h ▸ hb.king_board c k hk)
  · exact fun hk => hb.king_sq c k (h ▸ hb'.king_board c k hk)

/-- Two half turns give the board back, without its hash, check counters and history. -/
theorem flipped_flipped (hb : b.Consistent) : b.flipped.flipped =
    { b with hash := 0#64, continuousCheck := fun _ => 0, history := [] } := by
  have hflip := consistent_flipped hb.toAgree
  have hboard : b.flipped.flipped.board = b.board := by
    funext s
    have h1 := board_flipped (b := b) s
    have h2 := board_flipped (b := b.flipped) s.flipped
    rw [Square.flipped_flipped, h1] at h2
    rw [h2]
    by_cases hs : b.board s = .none
    · simp [hs]
    · simp [hs, flip_ne_none (hb.valid s hs)]
  have hback := consistent_flipped hflip.toAgree
  obtain ⟨hcolor, htype⟩ := hback.toAgree.bitboards_eq hb.toAgree hboard
  obtain ⟨hhand, hside, hply, -⟩ := flipped_rest (b := b)
  obtain ⟨hhand', hside', hply', hhash, hcheck, hhistory⟩ := flipped_rest (b := b.flipped)
  apply ShogiBoard.ext
  · exact hboard
  · exact htype
  · exact hcolor
  · funext c
    rw [hhand', hhand]
    exact congrArg b.hand (Color.compl_compl c)
  · exact @Consistent.kingSq_eq _ b hback hb hboard
  · rw [hside', hside, Color.compl_compl]
  · rw [hply', hply]
  · exact hhash
  · exact hcheck
  · exact hhistory

theorem inCheck_flipped (hb : b.Consistent) (hk : b.HasKings) (c : Color) :
    b.flipped.inCheck (~~~c) = b.inCheck c := by
  rw [Bool.eq_iff_iff, (consistent_flipped hb.toAgree).inCheck_iff (hasKings_flipped hb hk),
    hb.inCheck_iff hk, position_flipped hb.toAgree, Position.inCheck_flip]

/-- The generated moves of the flipped board. -/
theorem mem_generateLegalMoves_flipped (hb : b.Consistent) (hk : b.HasKings) {m : Move} :
    m.flip ∈ b.flipped.generateLegalMoves ↔ m ∈ b.generateLegalMoves := by
  rw [mem_generateLegalMoves (consistent_flipped hb.toAgree) (hasKings_flipped hb hk),
    position_flipped hb.toAgree, Position.legal_flip_iff, mem_generateLegalMoves hb hk]

end Flip

end ShogiBoard

end Shogi
