import ShogiEngine.Shogi.MakeMove

/-!
# Setting up a board

The constructor of `ShogiBoard`, men put on it one after the other, and the functions that
finish a set-up: `ComputeHash` and `ClearHistory`.

## Main definitions

- `ShogiBoard.new`, `placeAll`, `computeHash`, `clearHistory`

## Main results

- `consistent_placeAll`: men on different squares, at most one king a side, give a consistent
  board
-/

namespace Shogi

namespace ShogiBoard

/-- The constructor: an empty board with Black to move. -/
def new : ShogiBoard where
  board _ := .none
  byType _ := .zero
  byColor _ := .zero
  hand _ := .empty
  kingSq _ := none
  sideToMove := .black
  ply := 0
  hash := 0#64
  continuousCheck _ := 0
  history := []

/-- A loop of `PutPiece`. -/
def placeAll (b : ShogiBoard) (men : List (Square × Piece)) : ShogiBoard :=
  men.foldl (fun b m => b.putPiece m.1 m.2) b

/-- The value that `ComputeHash` stores. -/
def scratchHash (b : ShogiBoard) : BitVec 64 :=
  let h := (List.finRange 81).foldl (fun h s =>
    if !(b.board s).isNone then h ^^^ Zobrist.psq (b.board s) s else h) 0#64
  let h := h ^^^ hashHand .black (b.hand .black)
  let h := h ^^^ hashHand .white (b.hand .white)
  if b.sideToMove = .white then h ^^^ Zobrist.side else h

/-- `ComputeHash`. -/
def computeHash (b : ShogiBoard) : ShogiBoard := { b with hash := b.scratchHash }

/-- `ClearHistory`. -/
def clearHistory (b : ShogiBoard) : ShogiBoard :=
  { b with history := [], continuousCheck := fun _ => 0 }

/-! ## Consistency -/

theorem consistent_new : new.Consistent where
  color_mem c s := by simp [new]
  type_mem pt s := by simp [new]
  king_sq c s hs := PieceType.noConfusion (congrArg Piece.type hs)
  valid s hs := absurd rfl hs
  king_board c s hs := Option.noConfusion rfl (heq_of_eq hs)

section Place

variable {b : ShogiBoard} {men : List (Square × Piece)}

theorem Consistent.putPiece (hb : b.Consistent) {s : Square} {q : Piece}
    (hs : b.board s = .none) (hq : q.type.isValid = true)
    (hking : q.type = .king → b.kingSq q.color = none) : (b.putPiece s q).Consistent := by
  have hagree := hb.toAgree.putPiece hs hq fun hk u hu => by
    have := hb.king_sq q.color u (hu.trans (Piece.ext rfl hk))
    rw [hking hk] at this
    cases this
  refine ⟨hagree, fun c u hu => ?_⟩
  simp only [ShogiBoard.putPiece, Function.update_apply] at hu ⊢
  have hold : b.kingSq c = some u → (if u = s then q else b.board u) = ⟨c, .king⟩ := by
    intro hu
    have hub := hb.king_board c u hu
    rw [if_neg, hub]
    rintro rfl
    rw [hs] at hub
    exact PieceType.noConfusion (congrArg Piece.type hub)
  by_cases hk : q.type = .king
  · rw [if_pos hk, Function.update_apply] at hu
    split at hu
    · rename_i hc
      rw [if_pos (Option.some.inj hu).symm, hc]
      exact Piece.ext rfl hk
    · exact hold hu
  · rw [if_neg hk] at hu
    exact hold hu

/-- Men that can be put on a board together: on different empty squares, of proper types, and
with at most one king for each side. -/
structure Placeable (b : ShogiBoard) (men : List (Square × Piece)) : Prop where
  nodup : (men.map Prod.fst).Nodup
  empty : ∀ m ∈ men, b.board m.1 = .none
  valid : ∀ m ∈ men, m.2.type.isValid = true
  kings : ((men.filter fun m => m.2.type = .king).map fun m => m.2.color).Nodup
  noKing : ∀ m ∈ men, m.2.type = .king → b.kingSq m.2.color = none

theorem Placeable.tail {m : Square × Piece} (h : Placeable b (m :: men)) :
    Placeable (b.putPiece m.1 m.2) men := by
  obtain ⟨hm, hnodup⟩ := List.nodup_cons.mp h.nodup
  refine ⟨hnodup, fun x hx => ?_, fun x hx => h.valid x (List.mem_cons_of_mem _ hx), ?_,
    fun x hx hk => ?_⟩
  · have hne : x.1 ≠ m.1 := fun e => hm (e ▸ List.mem_map_of_mem hx)
    simp only [putPiece, Function.update_of_ne hne]
    exact h.empty x (List.mem_cons_of_mem _ hx)
  · refine h.kings.sublist (List.Sublist.map _ (List.Sublist.filter _ (List.sublist_cons_self _ _)))
  · have hold := h.noKing x (List.mem_cons_of_mem _ hx) hk
    simp only [putPiece]
    split
    · rename_i hmk
      rw [Function.update_of_ne, hold]
      intro hc
      have hkings := h.kings
      rw [List.filter_cons_of_pos (by simpa using hmk), List.map_cons, List.nodup_cons] at hkings
      exact hkings.1 (hc ▸ List.mem_map_of_mem (List.mem_filter.mpr ⟨hx, by simpa using hk⟩))
    · exact hold

theorem consistent_placeAll (hb : b.Consistent) (h : Placeable b men) :
    (b.placeAll men).Consistent := by
  induction men generalizing b with
  | nil => exact hb
  | cons m men ih =>
    have hm := List.mem_cons_self (a := m) (l := men)
    exact ih (hb.putPiece (h.empty m hm) (h.valid m hm) (h.noKing m hm)) h.tail

/-- Putting men on the board leaves the other fields alone. -/
theorem placeAll_rest : (b.placeAll men).hand = b.hand ∧ (b.placeAll men).sideToMove = b.sideToMove ∧
    (b.placeAll men).ply = b.ply ∧ (b.placeAll men).hash = b.hash ∧
    (b.placeAll men).continuousCheck = b.continuousCheck ∧
    (b.placeAll men).history = b.history := by
  induction men generalizing b with
  | nil => exact ⟨rfl, rfl, rfl, rfl, rfl, rfl⟩
  | cons m men ih => exact ih (b := b.putPiece m.1 m.2)

theorem board_placeAll_of_not_mem {s : Square} (h : ∀ m ∈ men, m.1 ≠ s) :
    (b.placeAll men).board s = b.board s := by
  induction men generalizing b with
  | nil => rfl
  | cons m men ih =>
    refine (ih fun x hx => h x (List.mem_cons_of_mem _ hx)).trans ?_
    exact Function.update_of_ne (h m List.mem_cons_self).symm _ _

theorem board_placeAll_of_mem (hnodup : (men.map Prod.fst).Nodup) {s : Square} {q : Piece}
    (h : (s, q) ∈ men) : (b.placeAll men).board s = q := by
  induction men generalizing b with
  | nil => cases h
  | cons m men ih =>
    obtain ⟨hm, hnodup⟩ := List.nodup_cons.mp hnodup
    cases h with
    | tail _ h => exact ih hnodup h
    | head =>
      have hrest : ((b.putPiece s q).placeAll men).board s = (b.putPiece s q).board s :=
        board_placeAll_of_not_mem fun x hx e => hm (List.mem_map.mpr ⟨x, hx, e⟩)
      have hput : (b.putPiece s q).board s = q := if_pos rfl
      exact hrest.trans hput

/-- Consistency is about the men and the king squares. -/
theorem Consistent.congr {b' : ShogiBoard} (h : b.Consistent) (hb : b'.board = b.board)
    (hc : b'.byColor = b.byColor) (ht : b'.byType = b.byType) (hk : b'.kingSq = b.kingSq) :
    b'.Consistent := by
  refine ⟨h.toAgree.congr hb hc ht hk, fun c s hs => ?_⟩
  rw [hk] at hs
  rw [hb]
  exact h.king_board c s hs

end Place

end ShogiBoard

end Shogi
