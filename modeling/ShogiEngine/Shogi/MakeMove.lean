import ShogiEngine.Shogi.Board
import ShogiEngine.Shogi.Hand
import ShogiEngine.Rules.Position

/-!
# Making and unmaking moves

`DoMove`, its lightweight variant for move generation, `UndoMove` and the incremental hash of
`shogi/board.cc`.

## Main definitions

- `doMoveInternal`, `undoMove`: the source's functions
- `Agree`, `Consistent`: the representation invariant
- `ShogiBoard.position`: the position that a board stands for

## Main results

- `position_doMoveInternal`: making an allowed move refines the rules
- `consistent_doMoveInternal`: a move that captures no king keeps the board consistent
- `undoMove_doMoveInternal`: `UndoMove` reverses each variant exactly
-/

namespace Shogi

/-! ## Zobrist keys -/

namespace Zobrist

/-- The output of `Rand64` after `n` earlier calls (splitmix64). -/
def rand64 (n : Nat) : BitVec 64 :=
  let z := 0x70736575646F7267#64 + BitVec.ofNat 64 (n + 1) * 0x9E3779B97F4A7C15#64
  let z := (z ^^^ (z >>> 30)) * 0xBF58476D1CE4E5B9#64
  let z := (z ^^^ (z >>> 27)) * 0x94D049BB133111EB#64
  z ^^^ (z >>> 31)

/-- `Psq[pc.val][sq]`, drawn first. -/
def psq (pc : Piece) (s : Square) : BitVec 64 := rand64 (pc.val * 81 + s.val)

/-- `HandPiece[c][pt][n]`, drawn after the square keys. -/
def handPiece (c : Color) (pt : PieceType) (n : Nat) : BitVec 64 :=
  rand64 (32 * 81 + c.idx * 160 + pt.idx * 20 + n)

/-- `Side`, drawn last. -/
def side : BitVec 64 := rand64 (32 * 81 + 2 * 160)

end Zobrist

/-- `HashHand`. -/
def hashHand (c : Color) (h : Hand) : BitVec 64 :=
  PieceType.handTypes.foldl (fun z pt =>
    let n := h.count pt
    if 0 < n then z ^^^ Zobrist.handPiece c pt n else z) 0#64

/-- `UndoInfo`. -/
structure UndoInfo where
  captured : Piece
  prevHand : Hand
  prevHash : BitVec 64
  prevContinuousCheck : Int
  gaveCheck : Bool
  updatedAuxiliary : Bool
  deriving DecidableEq, Repr

theorem Piece.ne_none_of_isValid {pc : Piece} (h : pc.type.isValid = true) : pc ≠ .none := by
  rintro rfl
  cases h

namespace ShogiBoard

/-! ## Making and unmaking -/

/-- `PutPiece`. -/
def putPiece (b : ShogiBoard) (s : Square) (pc : Piece) : ShogiBoard :=
  { b with
    board := Function.update b.board s pc
    byColor := Function.update b.byColor pc.color ((b.byColor pc.color).set s)
    byType := Function.update b.byType pc.type ((b.byType pc.type).set s)
    kingSq := if pc.type = .king then Function.update b.kingSq pc.color (some s) else b.kingSq }

/-- `RemovePiece`; the removed man is `b.board s`. -/
def removePiece (b : ShogiBoard) (s : Square) : ShogiBoard :=
  let pc := b.board s
  { b with
    board := Function.update b.board s .none
    byColor := Function.update b.byColor pc.color ((b.byColor pc.color).clear s)
    byType := Function.update b.byType pc.type ((b.byType pc.type).clear s) }

/-- `if (update_auxiliary) hash_ ^= key`. -/
def xorHash (b : ShogiBoard) (updateAuxiliary : Bool) (key : BitVec 64) : ShogiBoard :=
  { b with hash := if updateAuxiliary then b.hash ^^^ key else b.hash }

/-- `if (update_auxiliary) history_.push_back(...)`. -/
def pushHistory (b : ShogiBoard) (updateAuxiliary : Bool) : ShogiBoard :=
  { b with
    history :=
      if updateAuxiliary then
        b.history ++ [⟨b.hash, (b.hand .black).raw, (b.hand .white).raw⟩]
      else b.history }

/-- The continuous check counter of the side that has moved. -/
def countCheck (b : ShogiBoard) (us : Color) (gaveCheck : Bool) : ShogiBoard :=
  { b with
    continuousCheck := Function.update b.continuousCheck us
      (if gaveCheck then b.continuousCheck us + 2 else 0) }

/-- `hand_[c] = h`. -/
def setHand (b : ShogiBoard) (c : Color) (h : Hand) : ShogiBoard :=
  { b with hand := Function.update b.hand c h }

/-- A change of the hand between the two hash updates that go with it. -/
def changeHand (b : ShogiBoard) (updateAuxiliary : Bool) (c : Color) (f : Hand → Hand) :
    ShogiBoard :=
  let b := b.xorHash updateAuxiliary (hashHand c (b.hand c))
  let b := b.setHand c (f (b.hand c))
  b.xorHash updateAuxiliary (hashHand c (b.hand c))

/-- The drop branch of `DoMoveInternal`. -/
def doDrop (b : ShogiBoard) (updateAuxiliary : Bool) (pt : PieceType) (dst : Square) :
    ShogiBoard :=
  let us := b.sideToMove
  let b := b.changeHand updateAuxiliary us (Hand.sub · pt)
  let pc : Piece := ⟨us, pt⟩
  let b := b.putPiece dst pc
  b.xorHash updateAuxiliary (Zobrist.psq pc dst)

/-- The capture of the board move branch of `DoMoveInternal`. -/
def doCapture (b : ShogiBoard) (updateAuxiliary : Bool) (dst : Square) : ShogiBoard :=
  if !b.isEmpty dst then
    let captured := b.board dst
    let b := b.xorHash updateAuxiliary (Zobrist.psq captured dst)
    let b := b.removePiece dst
    b.changeHand updateAuxiliary b.sideToMove (Hand.add · captured.type.unpromote)
  else b

/-- The board move branch of `DoMoveInternal`. -/
def doBoardMove (b : ShogiBoard) (updateAuxiliary : Bool) (src dst : Square)
    (promotion : Bool) : ShogiBoard :=
  let b := b.doCapture updateAuxiliary dst
  let moved := b.board src
  let b := b.xorHash updateAuxiliary (Zobrist.psq moved src)
  let b := b.removePiece src
  let moved := if promotion then moved.promote else moved
  let b := b.putPiece dst moved
  b.xorHash updateAuxiliary (Zobrist.psq moved dst)

/-- What `DoMoveInternal` does to the men, the hands and their hash. -/
def applyMove (b : ShogiBoard) (m : Move) (updateAuxiliary : Bool) : ShogiBoard :=
  match m with
  | .drop pt dst => b.doDrop updateAuxiliary pt dst
  | .normal src dst => b.doBoardMove updateAuxiliary src dst false
  | .promotion src dst => b.doBoardMove updateAuxiliary src dst true

/-- `undo.captured`. -/
def capturedBy (b : ShogiBoard) (m : Move) : Piece :=
  match m with
  | .drop _ _ => .none
  | .normal _ dst => b.board dst
  | .promotion _ dst => b.board dst

/-- `DoMoveInternal`. `givesCheck` is `none` for the source's `-1`. -/
def doMoveInternal (b : ShogiBoard) (m : Move) (updateAuxiliary : Bool)
    (givesCheck : Option Bool) : ShogiBoard × UndoInfo :=
  let us := b.sideToMove
  let undo : UndoInfo :=
    { captured := b.capturedBy m
      prevHand := b.hand us
      prevHash := b.hash
      prevContinuousCheck := b.continuousCheck us
      gaveCheck := false
      updatedAuxiliary := updateAuxiliary }
  let b := b.pushHistory updateAuxiliary
  let b := b.applyMove m updateAuxiliary
  let b := b.xorHash updateAuxiliary Zobrist.side
  let b := { b with sideToMove := ~~~us, ply := b.ply + 1 }
  if updateAuxiliary then
    let gaveCheck := givesCheck.getD (b.inCheck (~~~us))
    (b.countCheck us gaveCheck, { undo with gaveCheck := gaveCheck })
  else (b, undo)

/-- `DoMove(m)`. -/
def doMove (b : ShogiBoard) (m : Move) : ShogiBoard := (b.doMoveInternal m true none).1

/-- `DoMoveForMovegen`. -/
def doMoveForMovegen (b : ShogiBoard) (m : Move) : ShogiBoard :=
  (b.doMoveInternal m false none).1

/-- The drop branch of `UndoMove`. -/
def undoDrop (b : ShogiBoard) (dst : Square) (undo : UndoInfo) : ShogiBoard :=
  (b.removePiece dst).setHand b.sideToMove undo.prevHand

/-- The board move branch of `UndoMove`. -/
def undoBoardMove (b : ShogiBoard) (src dst : Square) (promotion : Bool) (undo : UndoInfo) :
    ShogiBoard :=
  let moved := b.board dst
  let b := b.removePiece dst
  let moved := if promotion then moved.unpromote else moved
  let b := b.putPiece src moved
  if !undo.captured.isNone then
    (b.putPiece dst undo.captured).setHand b.sideToMove undo.prevHand
  else b

/-- What `UndoMove` does to the men and the hands. -/
def undoMen (b : ShogiBoard) (m : Move) (undo : UndoInfo) : ShogiBoard :=
  match m with
  | .drop _ dst => b.undoDrop dst undo
  | .normal src dst => b.undoBoardMove src dst false undo
  | .promotion src dst => b.undoBoardMove src dst true undo

/-- `UndoMove`. -/
def undoMove (b : ShogiBoard) (m : Move) (undo : UndoInfo) : ShogiBoard :=
  let b := { b with sideToMove := ~~~b.sideToMove, ply := b.ply - 1 }
  let b := b.undoMen m undo
  let b :=
    if undo.updatedAuxiliary then
      { b with
        hash := undo.prevHash
        continuousCheck := Function.update b.continuousCheck b.sideToMove
          undo.prevContinuousCheck }
    else b
  if undo.updatedAuxiliary && !b.history.isEmpty then { b with history := b.history.dropLast }
  else b

/-! ## The representation invariant -/

/-- The mailbox decides the bitboards, every man has a proper type, and every king on the board
is where its king square says. -/
structure Agree (b : ShogiBoard) : Prop where
  color_mem : ∀ c s, s ∈ b.byColor c ↔ b.board s ≠ .none ∧ (b.board s).color = c
  type_mem : ∀ pt s, s ∈ b.byType pt ↔ b.board s ≠ .none ∧ (b.board s).type = pt
  king_sq : ∀ c s, b.board s = ⟨c, .king⟩ → b.kingSq c = some s
  valid : ∀ s, b.board s ≠ .none → (b.board s).type.isValid = true

/-- Moreover a king square that is set holds that king. -/
structure Consistent (b : ShogiBoard) : Prop extends Agree b where
  king_board : ∀ c s, b.kingSq c = some s → b.board s = ⟨c, .king⟩

/-- The position that the mailbox, the hands and the side to move describe. -/
def position (b : ShogiBoard) : Position where
  man s := if b.board s = .none then none else some (b.board s)
  hand c pt := (b.hand c).count pt
  turn := b.sideToMove

section Agree

variable {b : ShogiBoard}

theorem men_iff {c : Color} {pt : PieceType} {s : Square} :
    b.position.men c pt s ↔ b.board s ≠ .none ∧ b.board s = ⟨c, pt⟩ := by
  simp only [Position.men, position]
  split
  · simp_all
  · simp_all

theorem Agree.has_iff (h : b.Agree) {c : Color} {pt : PieceType} {s : Square} :
    b.Has c pt s ↔ b.position.men c pt s := by
  rw [Has, h.color_mem, h.type_mem, men_iff, Piece.ext_iff]
  tauto

theorem Agree.has_eq (h : b.Agree) (c : Color) : b.Has c = b.position.men c :=
  funext fun _ => funext fun _ => propext h.has_iff

theorem Agree.mem_byColor (h : b.Agree) {c : Color} {s : Square} :
    s ∈ b.byColor c ↔ ∃ pt, b.position.men c pt s := by
  rw [h.color_mem]
  simp only [men_iff, Piece.ext_iff]
  constructor
  · exact fun ⟨hn, hc⟩ => ⟨_, hn, hc, rfl⟩
  · exact fun ⟨_, hn, hc, _⟩ => ⟨hn, hc⟩

theorem Agree.mem_occupied (h : b.Agree) {s : Square} :
    s ∈ b.occupied ↔ b.position.Occupied s := by
  rw [ShogiBoard.mem_occupied, Position.occupied_iff]
  exact exists_congr fun c => h.mem_byColor

theorem Agree.occupied_eq (h : b.Agree) : (· ∈ b.occupied) = b.position.Occupied :=
  funext fun _ => propext h.mem_occupied

theorem men_iff_of_isValid {c : Color} {pt : PieceType} {s : Square}
    (hpt : pt.isValid = true) : b.position.men c pt s ↔ b.board s = ⟨c, pt⟩ := by
  rw [ShogiBoard.men_iff, and_iff_right_iff_imp]
  exact fun hs => Piece.ne_none_of_isValid (by rw [hs]; exact hpt)

/-- Two agreeing boards with the same mailbox have the same bitboards. -/
theorem Agree.bitboards_eq {b' : ShogiBoard} (h : b.Agree) (h' : b'.Agree)
    (heq : b.board = b'.board) : b.byColor = b'.byColor ∧ b.byType = b'.byType :=
  ⟨funext fun c => Bitboard.ext_mem fun s => by rw [h.color_mem, h'.color_mem, heq],
    funext fun pt => Bitboard.ext_mem fun s => by rw [h.type_mem, h'.type_mem, heq]⟩

/-- `Agree` is about four fields. -/
theorem Agree.congr {b' : ShogiBoard} (h : b.Agree) (hb : b'.board = b.board)
    (hc : b'.byColor = b.byColor) (ht : b'.byType = b.byType) (hk : b'.kingSq = b.kingSq) :
    b'.Agree where
  color_mem c s := by rw [hc, hb, h.color_mem]
  type_mem pt s := by rw [ht, hb, h.type_mem]
  king_sq c s hs := by rw [hk, h.king_sq c s (by rw [← hb, hs])]
  valid s hs := by rw [hb] at hs ⊢; exact h.valid s hs

theorem isEmpty_iff {s : Square} : b.isEmpty s = true ↔ b.board s = .none := Piece.isNone_iff

theorem Agree.removePiece (h : b.Agree) (s : Square) : (b.removePiece s).Agree where
  color_mem c u := by
    simp only [ShogiBoard.removePiece, Function.update_apply]
    by_cases hu : u = s
    · subst hu
      by_cases hc : c = (b.board u).color
      · simp [hc]
      · simp [hc, h.color_mem, Ne.symm hc]
    · by_cases hc : c = (b.board s).color
      · simp [hc, hu, h.color_mem]
      · simp [hc, hu, h.color_mem]
  type_mem pt u := by
    simp only [ShogiBoard.removePiece, Function.update_apply]
    by_cases hu : u = s
    · subst hu
      by_cases hc : pt = (b.board u).type
      · simp [hc]
      · simp [hc, h.type_mem, Ne.symm hc]
    · by_cases hc : pt = (b.board s).type
      · simp [hc, hu, h.type_mem]
      · simp [hc, hu, h.type_mem]
  king_sq c u hu := by
    simp only [ShogiBoard.removePiece, Function.update_apply] at hu ⊢
    split at hu
    · cases hu
    · exact h.king_sq c u hu
  valid u hu := by
    simp only [ShogiBoard.removePiece, Function.update_apply] at hu ⊢
    split
    · rename_i e
      simp [e] at hu
    · rename_i e
      exact h.valid u (by simpa [e] using hu)

theorem Agree.putPiece (h : b.Agree) {s : Square} {q : Piece} (hs : b.board s = .none)
    (hq : q.type.isValid = true) (hking : q.type = .king → ∀ u, b.board u ≠ q) :
    (b.putPiece s q).Agree where
  color_mem c u := by
    have hne := Piece.ne_none_of_isValid hq
    simp only [ShogiBoard.putPiece, Function.update_apply]
    by_cases hu : u = s
    · subst hu
      by_cases hc : c = q.color
      · simp [hc, hne]
      · simp [hc, h.color_mem, hs, Ne.symm hc]
    · by_cases hc : c = q.color
      · simp [hc, hu, h.color_mem]
      · simp [hc, hu, h.color_mem]
  type_mem pt u := by
    have hne := Piece.ne_none_of_isValid hq
    simp only [ShogiBoard.putPiece, Function.update_apply]
    by_cases hu : u = s
    · subst hu
      by_cases hc : pt = q.type
      · simp [hc, hne]
      · simp [hc, h.type_mem, hs, Ne.symm hc]
    · by_cases hc : pt = q.type
      · simp [hc, hu, h.type_mem]
      · simp [hc, hu, h.type_mem]
  king_sq c u hu := by
    simp only [ShogiBoard.putPiece, Function.update_apply] at hu ⊢
    by_cases hus : u = s
    · rw [if_pos hus] at hu
      subst hus
      simp [hu]
    · rw [if_neg hus] at hu
      by_cases hk : q.type = .king
      · rw [if_pos hk, Function.update_apply, if_neg]
        · exact h.king_sq c u hu
        · rintro rfl
          exact hking hk u (by rw [hu, ← hk])
      · rw [if_neg hk]
        exact h.king_sq c u hu
  valid u hu := by
    simp only [ShogiBoard.putPiece, Function.update_apply] at hu ⊢
    split
    · exact hq
    · rename_i e
      exact h.valid u (by simpa [e] using hu)

end Agree

/-! ## Fields after a move -/

section Fields

variable (b : ShogiBoard) (u : Bool) (s t : Square) (pt : PieceType) (promotion : Bool)

/-- The man that a board move puts on its destination. -/
def movedPiece : Piece := if promotion then (b.board s).promote else b.board s

@[simp] theorem board_doCapture : (b.doCapture u t).board = Function.update b.board t .none := by
  rw [doCapture]
  split
  · rfl
  · rename_i h
    have : b.board t = .none := isEmpty_iff.mp (by simpa using h)
    rw [← this, Function.update_eq_self]

@[simp] theorem kingSq_doCapture : (b.doCapture u t).kingSq = b.kingSq := by
  rw [doCapture]
  split <;> rfl

@[simp] theorem sideToMove_doCapture : (b.doCapture u t).sideToMove = b.sideToMove := by
  rw [doCapture]
  split <;> rfl

theorem hand_doCapture : (b.doCapture u t).hand = if b.board t = .none then b.hand
    else Function.update b.hand b.sideToMove
      ((b.hand b.sideToMove).add (b.board t).type.unpromote) := by
  rw [doCapture]
  by_cases h : b.board t = .none
  · rw [if_pos h, if_neg (by simpa using isEmpty_iff.mpr h)]
  · rw [if_neg h, if_pos (by simpa using fun e => h (isEmpty_iff.mp e))]
    rfl

theorem aux_doCapture : (b.doCapture u t).ply = b.ply ∧
    (b.doCapture u t).continuousCheck = b.continuousCheck ∧
    (b.doCapture u t).history = b.history := by
  rw [doCapture]
  split <;> exact ⟨rfl, rfl, rfl⟩

variable {s t} in
@[simp] theorem board_doBoardMove (hne : s ≠ t) : (b.doBoardMove u s t promotion).board =
    Function.update (Function.update b.board s .none) t (b.movedPiece s promotion) := by
  simp only [doBoardMove, xorHash, putPiece, removePiece, board_doCapture,
    Function.update_of_ne hne, movedPiece]
  funext x
  simp only [Function.update_apply]
  split
  · rfl
  · split <;> rfl

variable {s t} in
theorem kingSq_doBoardMove (hne : s ≠ t) : (b.doBoardMove u s t promotion).kingSq =
    if (b.movedPiece s promotion).type = .king then
      Function.update b.kingSq (b.movedPiece s promotion).color (some t)
    else b.kingSq := by
  simp only [doBoardMove, xorHash, putPiece, removePiece, board_doCapture,
    Function.update_of_ne hne, movedPiece, kingSq_doCapture]
  rfl

theorem hand_doBoardMove : (b.doBoardMove u s t promotion).hand = (b.doCapture u t).hand := rfl

theorem sideToMove_doBoardMove : (b.doBoardMove u s t promotion).sideToMove = b.sideToMove :=
  sideToMove_doCapture b u t

theorem aux_doBoardMove : (b.doBoardMove u s t promotion).ply = b.ply ∧
    (b.doBoardMove u s t promotion).continuousCheck = b.continuousCheck ∧
    (b.doBoardMove u s t promotion).history = b.history :=
  aux_doCapture b u t

/-- `applyMove` leaves the clocks and the history alone. -/
theorem aux_applyMove (m : Move) : (b.applyMove m u).sideToMove = b.sideToMove ∧
    (b.applyMove m u).ply = b.ply ∧ (b.applyMove m u).continuousCheck = b.continuousCheck ∧
    (b.applyMove m u).history = b.history := by
  cases m with
  | drop pt t => exact ⟨rfl, rfl, rfl, rfl⟩
  | normal s t => exact ⟨sideToMove_doBoardMove b u s t false, aux_doBoardMove b u s t false⟩
  | promotion s t => exact ⟨sideToMove_doBoardMove b u s t true, aux_doBoardMove b u s t true⟩

end Fields

/-! ## What a move needs -/

/-- A board move the functions are made for: an own man moves to a square that is empty or
holds an enemy, and promotes only if it can. -/
structure CanMove (b : ShogiBoard) (s t : Square) (promotion : Bool) : Prop where
  ne : s ≠ t
  src : b.board s ≠ .none
  own : (b.board s).color = b.sideToMove
  dst : b.board t = .none ∨ (b.board t).color = ~~~b.sideToMove
  able : promotion = true → (b.board s).type.canPromote = true

/-- What each kind of move needs. -/
def CanPlay (b : ShogiBoard) : Move → Prop
  | .drop pt t => b.board t = .none ∧ pt.isHandPiece = true
  | .normal s t => b.CanMove s t false
  | .promotion s t => b.CanMove s t true

theorem canMove_of_moves {b : ShogiBoard} {m : Move} {pt : PieceType}
    {s t : Square} {promotion : Bool} (hm : b.position.Moves m pt s t)
    (hp : promotion = true → pt.canPromote = true) : b.CanMove s t promotion := by
  obtain ⟨hn, hs⟩ := men_iff.mp hm.goes.man
  refine ⟨hm.goes.ne, hn, by rw [hs]; rfl, ?_, fun e => by rw [hs]; exact hp e⟩
  by_cases ht : b.board t = .none
  · exact Or.inl ht
  · right
    by_contra hc
    have hown : (b.board t).color = b.sideToMove := by
      rw [← Color.compl_compl b.sideToMove]
      exact Color.ne_iff_eq_compl.mp hc
    exact hm.goes.free (b.board t).type (men_iff.mpr ⟨ht, Piece.ext hown rfl⟩)

/-- The rules allow only moves that the functions are made for. -/
theorem canPlay_of_allowed {b : ShogiBoard} {m : Move}
    (hm : b.position.Allowed m) : b.CanPlay m := by
  cases hm with
  | normal goes _ => exact canMove_of_moves goes.moves_normal fun e => by cases e
  | promotion goes able _ => exact canMove_of_moves (goes.moves_promotion able) fun _ => able
  | drop able _ empty _ _ =>
    refine ⟨?_, able⟩
    by_contra hn
    simp [position, hn] at empty

section Preservation

variable {b : ShogiBoard} {u : Bool} {s t : Square} {promotion : Bool}

theorem CanMove.valid_movedPiece (h : b.CanMove s t promotion) (ha : b.Agree) :
    (b.movedPiece s promotion).type.isValid = true := by
  rw [movedPiece]
  split
  · exact PieceType.isValid_promote (h.able ‹_›)
  · exact ha.valid s h.src

theorem CanMove.color_movedPiece (h : b.CanMove s t promotion) :
    (b.movedPiece s promotion).color = b.sideToMove := by
  rw [← h.own, movedPiece]
  split <;> rfl

/-- Only a king that does not promote arrives as a king. -/
theorem CanMove.king_iff (h : b.CanMove s t promotion) :
    (b.movedPiece s promotion).type = .king ↔ (b.board s).type = .king := by
  rw [movedPiece]
  split
  · rename_i hp
    exact iff_of_false (Position.promote_ne_king (h.able hp))
      (Position.ne_king_of_canPromote (h.able hp))
  · exact Iff.rfl

theorem Agree.doCapture (h : b.Agree) (u : Bool) (t : Square) : (b.doCapture u t).Agree := by
  rw [ShogiBoard.doCapture]
  split
  · exact (h.removePiece t).congr rfl rfl rfl rfl
  · exact h

/-- No second king of a colour stands anywhere. -/
theorem Agree.king_unique (h : b.Agree) {c : Color} {x y : Square}
    (hx : b.board x = ⟨c, .king⟩) (hy : b.board y = ⟨c, .king⟩) : x = y :=
  Option.some.inj ((h.king_sq c x hx).symm.trans (h.king_sq c y hy))

theorem Agree.doBoardMove (h : b.Agree) (hm : b.CanMove s t promotion) :
    (b.doBoardMove u s t promotion).Agree := by
  have hcap := h.doCapture u t
  have hxor : ((b.doCapture u t).xorHash u (Zobrist.psq (b.board s) s)).Agree :=
    hcap.congr rfl rfl rfl rfl
  have hrem := hxor.removePiece s
  refine Agree.congr (hrem.putPiece (s := t) (q := b.movedPiece s promotion) ?_ ?_ ?_) ?_ ?_ ?_ ?_
  · simp [ShogiBoard.removePiece, xorHash, Function.update_apply]
  · exact hm.valid_movedPiece h
  · intro hk x hx
    have hking := hm.king_iff.mp hk
    have hmoved : b.movedPiece s promotion = ⟨b.sideToMove, .king⟩ :=
      Piece.ext hm.color_movedPiece hk
    simp only [ShogiBoard.removePiece, xorHash, board_doCapture, Function.update_apply] at hx
    have hno : Piece.none ≠ b.movedPiece s promotion := by
      rw [hmoved]
      exact fun e => PieceType.noConfusion (congrArg Piece.type e)
    split at hx
    · exact hno hx
    · split at hx
      · exact hno hx
      · rename_i hxs _
        exact hxs (h.king_unique (hx.trans hmoved) (Piece.ext hm.own hking))
  all_goals
    simp only [ShogiBoard.doBoardMove, xorHash, ShogiBoard.putPiece, ShogiBoard.removePiece,
      board_doCapture, Function.update_of_ne hm.ne, movedPiece]

theorem Agree.doDrop (h : b.Agree) {pt : PieceType} (ht : b.board t = .none)
    (hpt : pt.isHandPiece = true) : (b.doDrop u pt t).Agree := by
  refine Agree.congr (h.putPiece (s := t) (q := ⟨b.sideToMove, pt⟩) ht
    (PieceType.isValid_of_isHandPiece hpt) ?_) rfl rfl rfl rfl
  rintro rfl
  cases hpt

theorem Agree.applyMove (h : b.Agree) {m : Move} (hm : b.CanPlay m) : (b.applyMove m u).Agree := by
  cases m with
  | drop pt t => exact h.doDrop hm.1 hm.2
  | normal s t => exact h.doBoardMove hm
  | promotion s t => exact h.doBoardMove hm

end Preservation

/-! ## The whole of `DoMoveInternal` -/

section DoMove

variable (b : ShogiBoard) (m : Move) (u : Bool) (g : Option Bool)

/-- The history does not influence what happens to the men. -/
theorem applyMove_pushHistory : (b.pushHistory u).applyMove m u =
    { b.applyMove m u with history := (b.pushHistory u).history } := by
  have hmove : ∀ s t p, (b.pushHistory u).doBoardMove u s t p =
      { b.doBoardMove u s t p with history := (b.pushHistory u).history } := by
    intro s t p
    have hcap : (b.pushHistory u).doCapture u t =
        { b.doCapture u t with history := (b.pushHistory u).history } := by
      have he : (b.pushHistory u).isEmpty t = b.isEmpty t := rfl
      simp only [doCapture, he]
      split <;> rfl
    simp only [doBoardMove, hcap]
    rfl
  cases m with
  | drop pt t => rfl
  | normal s t => exact hmove s t false
  | promotion s t => exact hmove s t true

/-- The light mode leaves the hash alone. -/
theorem hash_applyMove_false : (b.applyMove m false).hash = b.hash := by
  have hcap : ∀ t, (b.doCapture false t).hash = b.hash := by
    intro t
    simp only [doCapture]
    split <;> rfl
  cases m with
  | drop pt t => rfl
  | normal s t => exact hcap t
  | promotion s t => exact hcap t

theorem board_doMoveInternal :
    (b.doMoveInternal m u g).1.board = (b.applyMove m u).board := by
  simp only [doMoveInternal, applyMove_pushHistory]
  split <;> rfl

theorem byColor_doMoveInternal :
    (b.doMoveInternal m u g).1.byColor = (b.applyMove m u).byColor := by
  simp only [doMoveInternal, applyMove_pushHistory]
  split <;> rfl

theorem byType_doMoveInternal :
    (b.doMoveInternal m u g).1.byType = (b.applyMove m u).byType := by
  simp only [doMoveInternal, applyMove_pushHistory]
  split <;> rfl

theorem kingSq_doMoveInternal :
    (b.doMoveInternal m u g).1.kingSq = (b.applyMove m u).kingSq := by
  simp only [doMoveInternal, applyMove_pushHistory]
  split <;> rfl

theorem hand_doMoveInternal :
    (b.doMoveInternal m u g).1.hand = (b.applyMove m u).hand := by
  simp only [doMoveInternal, applyMove_pushHistory]
  split <;> rfl

theorem sideToMove_doMoveInternal :
    (b.doMoveInternal m u g).1.sideToMove = ~~~b.sideToMove := by
  simp only [doMoveInternal]
  split <;> rfl

theorem ply_doMoveInternal : (b.doMoveInternal m u g).1.ply = b.ply + 1 := by
  have h := (aux_applyMove b u m).2.1
  simp only [doMoveInternal, applyMove_pushHistory]
  split
  · exact congrArg (· + 1) h
  · exact congrArg (· + 1) h

theorem history_doMoveInternal :
    (b.doMoveInternal m u g).1.history = (b.pushHistory u).history := by
  simp only [doMoveInternal, applyMove_pushHistory]
  split <;> rfl

theorem hash_doMoveInternal : (b.doMoveInternal m u g).1.hash =
    if u then (b.applyMove m u).hash ^^^ Zobrist.side else b.hash := by
  cases u
  · simp only [doMoveInternal, applyMove_pushHistory]
    exact hash_applyMove_false b m
  · simp only [doMoveInternal, applyMove_pushHistory]
    rfl

theorem continuousCheck_doMoveInternal_false :
    (b.doMoveInternal m false g).1.continuousCheck = b.continuousCheck :=
  (aux_applyMove (b.pushHistory false) false m).2.2.1

/-- The undo record, apart from the check flag. -/
theorem undo_doMoveInternal : (b.doMoveInternal m u g).2 =
    { captured := b.capturedBy m
      prevHand := b.hand b.sideToMove
      prevHash := b.hash
      prevContinuousCheck := b.continuousCheck b.sideToMove
      gaveCheck := (b.doMoveInternal m u g).2.gaveCheck
      updatedAuxiliary := u } := by
  cases u <;> rfl

/-- The counter after a move in the full mode. -/
theorem continuousCheck_doMoveInternal_true :
    (b.doMoveInternal m true g).1.continuousCheck =
      Function.update b.continuousCheck b.sideToMove
        (if (b.doMoveInternal m true g).2.gaveCheck then b.continuousCheck b.sideToMove + 2
          else 0) := by
  have h := (aux_applyMove b true m).2.2.1
  simp only [doMoveInternal, applyMove_pushHistory, countCheck, if_true, xorHash]
  rw [h]

theorem agree_doMoveInternal (h : b.Agree) (hm : b.CanPlay m) :
    (b.doMoveInternal m u g).1.Agree :=
  (h.applyMove hm).congr (board_doMoveInternal b m u g) (byColor_doMoveInternal b m u g)
    (byType_doMoveInternal b m u g) (kingSq_doMoveInternal b m u g)

end DoMove

/-! ## Refinement of the rules -/

section Refinement

variable {b : ShogiBoard} {m : Move} {u : Bool} {g : Option Bool}

/-- The hand counts that a move changes stay within their fields. -/
def HasRoom (b : ShogiBoard) : Move → Prop
  | .drop pt _ => 0 < (b.hand b.sideToMove).count pt
  | .normal _ t | .promotion _ t => b.board t ≠ .none →
      (b.board t).type.unpromote.isHandPiece = true →
        (b.hand b.sideToMove).count (b.board t).type.unpromote + 1 <
          2 ^ Hand.kWidth (b.board t).type.unpromote

theorem man_eq {s : Square} :
    b.position.man s = if b.board s = .none then none else some (b.board s) := rfl

theorem man_doBoardMove {s t : Square} {promotion : Bool} (ha : b.Agree)
    (hm : b.CanMove s t promotion) (x : Square) :
    (b.doBoardMove u s t promotion).position.man x =
      if x = t then some (b.movedPiece s promotion)
      else if x = s then none else b.position.man x := by
  have hne := Piece.ne_none_of_isValid (hm.valid_movedPiece ha)
  rw [man_eq, board_doBoardMove b u promotion hm.ne]
  simp only [Function.update_apply]
  by_cases ht : x = t
  · simp [ht, hne]
  · by_cases hs : x = s
    · simp [hs, hm.ne]
    · simp [ht, hs, man_eq]

/-- The men after a move are those the rules ask for. -/
theorem man_doMoveInternal (ha : b.Agree) (hm : b.CanPlay m) :
    (b.doMoveInternal m u g).1.position.man = (b.position.play m).man := by
  have hboard : (b.doMoveInternal m u g).1.position.man = (b.applyMove m u).position.man := by
    funext x
    rw [man_eq, man_eq, board_doMoveInternal]
  have hcongr : ∀ s x : Square, (some s = some x) = (x = s) :=
    fun s x => propext (by rw [Option.some.injEq]; exact eq_comm)
  rw [hboard]
  funext x
  cases m with
  | drop pt t =>
    have hne : (⟨b.sideToMove, pt⟩ : Piece) ≠ .none :=
      Piece.ne_none_of_isValid (PieceType.isValid_of_isHandPiece hm.2)
    have happ : (b.applyMove (.drop pt t) u).board =
        Function.update b.board t ⟨b.sideToMove, pt⟩ := rfl
    rw [man_eq, happ]
    simp only [Function.update_apply, Position.play, Move.dst, Move.src, Position.arriving]
    by_cases hx : x = t
    · simp [hx, hne, position]
    · simp [hx, man_eq]
  | normal s t =>
    have hs : b.position.man s = some (b.board s) := if_neg hm.src
    simp only [applyMove, man_doBoardMove ha hm, Position.play, Move.dst, Move.src,
      Position.arriving, hs, hcongr]
    rfl
  | promotion s t =>
    have hs : b.position.man s = some (b.board s) := if_neg hm.src
    simp only [applyMove, man_doBoardMove ha hm, Position.play, Move.dst, Move.src,
      Position.arriving, hs, hcongr]
    rfl

/-- The hands after a move are those the rules ask for. -/
theorem handCount_doMoveInternal (hroom : b.HasRoom m) (c : Color) (pt : PieceType) :
    ((b.doMoveInternal m u g).1.hand c).count pt = (b.position.play m).hand c pt := by
  have hmove : ∀ s t p, ((b.doBoardMove u s t p).hand c).count pt =
      if c = b.sideToMove ∧ b.board t ≠ .none then
        (((b.hand b.sideToMove).add (b.board t).type.unpromote).count pt)
      else (b.hand c).count pt := by
    intro s t p
    rw [hand_doBoardMove, hand_doCapture]
    by_cases ht : b.board t = .none
    · simp [ht]
    · by_cases hc : c = b.sideToMove
      · subst hc
        simp [ht]
      · simp [ht, hc]
  have hcapture : ∀ s t, b.HasRoom (.normal s t) →
      (if c = b.sideToMove ∧ b.board t ≠ .none then
        (((b.hand b.sideToMove).add (b.board t).type.unpromote).count pt)
      else (b.hand c).count pt) =
      if c = b.sideToMove then b.position.handAfter (.normal s t) pt
      else (b.hand c).count pt := by
    intro s t hroom
    by_cases hc : c = b.sideToMove
    · subst hc
      by_cases ht : b.board t = .none
      · simp [Position.handAfter, ht, position]
      · simp only [Position.handAfter, man_eq, ht, ne_eq, not_false_eq_true, and_self, if_true,
          if_false]
        cases hh : (b.board t).type.unpromote.isHandPiece with
        | false =>
          rw [Hand.add_of_not_handPiece hh, if_neg]
          · rfl
          · rintro ⟨rfl, h⟩
            rw [h] at hh
            cases hh
        | true =>
          rw [Hand.count_add hh (hroom ht hh)]
          by_cases hpt : pt = (b.board t).type.unpromote
          · simp [hpt, hh, position]
          · simp [hpt, position]
    · simp [hc]
  rw [hand_doMoveInternal]
  cases m with
  | drop qt t =>
    have happ : (b.applyMove (.drop qt t) u).hand =
        Function.update b.hand b.sideToMove ((b.hand b.sideToMove).sub qt) := rfl
    rw [happ]
    by_cases hc : c = b.sideToMove
    · subst hc
      rw [Function.update_self, Hand.count_sub hroom]
      simp only [Position.play, Position.handAfter, position, if_true]
      by_cases hpt : pt = qt
      · simp [hpt]
      · simp [hpt]
    · rw [Function.update_of_ne hc]
      simp [Position.play, position, hc]
  | normal s t => exact (hmove s t false).trans (hcapture s t hroom)
  | promotion s t => exact (hmove s t true).trans (hcapture s t hroom)

/-- Making a move refines the move of the rules. -/
theorem position_doMoveInternal (ha : b.Agree) (hm : b.CanPlay m) (hroom : b.HasRoom m) :
    (b.doMoveInternal m u g).1.position = b.position.play m :=
  Position.ext (man_doMoveInternal ha hm)
    (funext fun c => funext fun pt => handCount_doMoveInternal hroom c pt)
    (sideToMove_doMoveInternal b m u g)

/-- The king square that a move which captures no king leaves behind. -/
theorem consistent_doMoveInternal (hb : b.Consistent) (hm : b.CanPlay m)
    (hking : m.isDrop = true ∨ (b.board m.dst).type ≠ .king) :
    (b.doMoveInternal m u g).1.Consistent := by
  refine ⟨agree_doMoveInternal b m u g hb.toAgree hm, fun c x hx => ?_⟩
  rw [kingSq_doMoveInternal] at hx
  rw [board_doMoveInternal]
  have hmove : ∀ s t p, b.CanMove s t p → (b.board t).type ≠ .king →
      (b.doBoardMove u s t p).kingSq c = some x →
      (b.doBoardMove u s t p).board x = ⟨c, .king⟩ := by
    intro s t p hm ht hx
    rw [kingSq_doBoardMove b u p hm.ne] at hx
    rw [board_doBoardMove b u p hm.ne]
    by_cases hk : (b.movedPiece s p).type = .king
    · rw [if_pos hk, Function.update_apply] at hx
      split at hx
      · rename_i hc
        rw [← Option.some.inj hx, Function.update_self, hc]
        exact Piece.ext rfl hk
      · rename_i hc
        have hxb := hb.king_board c x hx
        have hxs : x ≠ s := by
          rintro rfl
          exact hc (by rw [hm.color_movedPiece, ← hm.own, hxb])
        have hxt : x ≠ t := by
          rintro rfl
          exact ht (by rw [hxb])
        rw [Function.update_of_ne hxt, Function.update_of_ne hxs, hxb]
    · rw [if_neg hk] at hx
      have hxb := hb.king_board c x hx
      have hxs : x ≠ s := by
        rintro rfl
        exact hk (hm.king_iff.mpr (by rw [hxb]))
      have hxt : x ≠ t := by
        rintro rfl
        exact ht (by rw [hxb])
      rw [Function.update_of_ne hxt, Function.update_of_ne hxs, hxb]
  cases m with
  | drop pt t =>
    have hnk : pt ≠ .king := by
      rintro rfl
      exact absurd hm.2 (by decide)
    have hx' : b.kingSq c = some x := by
      have : (b.applyMove (.drop pt t) u).kingSq = b.kingSq := if_neg hnk
      rw [← this, hx]
    have hxb := hb.king_board c x hx'
    have hxt : x ≠ t := by
      rintro rfl
      rw [hm.1] at hxb
      exact PieceType.noConfusion (congrArg Piece.type hxb)
    change Function.update b.board t ⟨b.sideToMove, pt⟩ x = ⟨c, .king⟩
    rw [Function.update_of_ne hxt, hxb]
  | normal s t => exact hmove s t false hm (hking.resolve_left (by simp [Move.isDrop])) hx
  | promotion s t => exact hmove s t true hm (hking.resolve_left (by simp [Move.isDrop])) hx

end Refinement

/-! ## `UndoMove` reverses `DoMoveInternal` -/

section Undo

variable {b b' : ShogiBoard} {s t : Square} {promotion : Bool} {undo : UndoInfo}

theorem unpromote_movedPiece (h : b.CanMove s t promotion) :
    (if promotion then (b.movedPiece s promotion).unpromote else b.movedPiece s promotion) =
      b.board s := by
  rw [movedPiece]
  split
  · rename_i hp
    exact Piece.ext rfl (PieceType.unpromote_promote (h.able hp))
  · rfl

/-- The men after a board move has been taken back. -/
theorem undoBoardMove_men (ha : b.Agree) (ha' : b'.Agree) (hm : b.CanMove s t promotion)
    (hboard : b'.board =
      Function.update (Function.update b.board s .none) t (b.movedPiece s promotion))
    (hcap : undo.captured = b.board t) :
    (b'.undoBoardMove s t promotion undo).board = b.board ∧
      (b'.undoBoardMove s t promotion undo).Agree := by
  have hmoved : b'.board t = b.movedPiece s promotion := by rw [hboard, Function.update_self]
  have hback := unpromote_movedPiece hm
  have hrem := ha'.removePiece t
  have hremBoard : (b'.removePiece t).board =
      Function.update (Function.update b.board s .none) t .none := by
    simp only [removePiece, hboard, Function.update_idem]
  have hne : ∀ x, (b'.removePiece t).board x ≠ .none → x ≠ s ∧ x ≠ t ∧
      (b'.removePiece t).board x = b.board x := by
    intro x hx
    rw [hremBoard] at hx ⊢
    simp only [Function.update_apply] at hx ⊢
    by_cases hxt : x = t
    · simp [hxt] at hx
    · by_cases hxs : x = s
      · simp [hxs] at hx
      · simp [hxt, hxs]
  have hput := hrem.putPiece (s := s) (q := b.board s)
    (by rw [hremBoard, Function.update_of_ne hm.ne, Function.update_self]) (ha.valid s hm.src)
    (by
      intro hk x hx
      obtain ⟨hxs, -, he⟩ := hne x (hx ▸ hm.src)
      exact hxs (ha.king_unique (he ▸ hx.trans (Piece.ext rfl hk)) (Piece.ext rfl hk)))
  have hputBoard : ((b'.removePiece t).putPiece s (b.board s)).board =
      Function.update b.board t .none := by
    simp only [ShogiBoard.putPiece, hremBoard]
    funext x
    simp only [Function.update_apply]
    by_cases hxs : x = s
    · simp [hxs, hm.ne]
    · simp [hxs]
  simp only [undoBoardMove, hmoved, hback, hcap]
  by_cases ht : b.board t = .none
  · rw [if_neg (by simp [Piece.isNone_iff.mpr ht])]
    refine ⟨?_, hput⟩
    rw [hputBoard, ← ht, Function.update_eq_self]
  · rw [if_pos (by simpa using fun e => ht (Piece.isNone_iff.mp e))]
    constructor
    · simp only [setHand, ShogiBoard.putPiece]
      simp only [ShogiBoard.putPiece] at hputBoard
      rw [hputBoard, Function.update_idem, Function.update_eq_self]
    · refine (hput.putPiece (s := t) (q := b.board t) ?_ (ha.valid t ht) ?_).congr rfl rfl rfl rfl
      · rw [hputBoard, Function.update_self]
      · intro hk x hx
        rw [hputBoard] at hx
        by_cases hxt : x = t
        · rw [hxt, Function.update_self] at hx
          exact ht hx.symm
        · rw [Function.update_of_ne hxt] at hx
          exact hxt (ha.king_unique (hx.trans (Piece.ext rfl hk)) (Piece.ext rfl hk))

/-- The king squares after a board move has been taken back. -/
theorem undoBoardMove_kingSq (ha : b.Agree) (hm : b.CanMove s t promotion)
    (hboard : b'.board t = b.movedPiece s promotion)
    (hking : b'.kingSq = if (b.movedPiece s promotion).type = .king then
      Function.update b.kingSq (b.movedPiece s promotion).color (some t) else b.kingSq)
    (hcap : undo.captured = b.board t) :
    (b'.undoBoardMove s t promotion undo).kingSq = b.kingSq := by
  have hput : ((b'.removePiece t).putPiece s (b.board s)).kingSq = b.kingSq := by
    simp only [putPiece, removePiece, hking, hm.king_iff, hm.color_movedPiece]
    by_cases hk : (b.board s).type = .king
    · rw [if_pos hk, if_pos hk, hm.own, Function.update_idem,
        ← ha.king_sq b.sideToMove s (Piece.ext hm.own hk), Function.update_eq_self]
    · rw [if_neg hk, if_neg hk]
  simp only [undoBoardMove, hboard, unpromote_movedPiece hm, hcap]
  by_cases ht : b.board t = .none
  · rw [if_neg (by simp [Piece.isNone_iff.mpr ht]), hput]
  · rw [if_pos (by simpa using fun e => ht (Piece.isNone_iff.mp e))]
    change (if (b.board t).type = .king then
      Function.update ((b'.removePiece t).putPiece s (b.board s)).kingSq (b.board t).color (some t)
      else ((b'.removePiece t).putPiece s (b.board s)).kingSq) = b.kingSq
    rw [hput]
    split
    · rename_i hk
      rw [← ha.king_sq (b.board t).color t (Piece.ext rfl hk), Function.update_eq_self]
    · rfl

theorem undoBoardMove_hand (hcap : undo.captured = b.board t) :
    (b'.undoBoardMove s t promotion undo).hand = if b.board t = .none then b'.hand
      else Function.update b'.hand b'.sideToMove undo.prevHand := by
  simp only [undoBoardMove, hcap]
  by_cases ht : b.board t = .none
  · rw [if_neg (by simp [Piece.isNone_iff.mpr ht]), if_pos ht]
    rfl
  · rw [if_pos (by simpa using fun e => ht (Piece.isNone_iff.mp e)), if_neg ht]
    rfl

/-- What the men branch of `UndoMove` leaves alone. -/
theorem undoBoardMove_rest : (b'.undoBoardMove s t promotion undo).sideToMove = b'.sideToMove ∧
    (b'.undoBoardMove s t promotion undo).ply = b'.ply ∧
    (b'.undoBoardMove s t promotion undo).hash = b'.hash ∧
    (b'.undoBoardMove s t promotion undo).continuousCheck = b'.continuousCheck ∧
    (b'.undoBoardMove s t promotion undo).history = b'.history := by
  simp only [undoBoardMove]
  split <;> exact ⟨rfl, rfl, rfl, rfl, rfl⟩

theorem undoMen_rest (b' : ShogiBoard) (undo : UndoInfo) (m : Move) :
    (b'.undoMen m undo).sideToMove = b'.sideToMove ∧
    (b'.undoMen m undo).ply = b'.ply ∧ (b'.undoMen m undo).hash = b'.hash ∧
    (b'.undoMen m undo).continuousCheck = b'.continuousCheck ∧
    (b'.undoMen m undo).history = b'.history := by
  cases m with
  | drop pt t => exact ⟨rfl, rfl, rfl, rfl, rfl⟩
  | normal s t => exact undoBoardMove_rest
  | promotion s t => exact undoBoardMove_rest

/-- The men and the hands after a move has been taken back. -/
theorem undoMen_applyMove {m : Move} {u : Bool} (ha : b.Agree) (hm : b.CanPlay m)
    (ha' : b'.Agree) (hboard : b'.board = (b.applyMove m u).board)
    (hking : b'.kingSq = (b.applyMove m u).kingSq) (hhand : b'.hand = (b.applyMove m u).hand)
    (hturn : b'.sideToMove = b.sideToMove) (hcap : undo.captured = b.capturedBy m)
    (hprev : undo.prevHand = b.hand b.sideToMove) :
    (b'.undoMen m undo).board = b.board ∧ (b'.undoMen m undo).Agree ∧
      (b'.undoMen m undo).kingSq = b.kingSq ∧ (b'.undoMen m undo).hand = b.hand := by
  have hmove : ∀ s t p, b.CanMove s t p → b'.board = (b.doBoardMove u s t p).board →
      b'.kingSq = (b.doBoardMove u s t p).kingSq → b'.hand = (b.doBoardMove u s t p).hand →
      undo.captured = b.board t → (b'.undoBoardMove s t p undo).board = b.board ∧
        (b'.undoBoardMove s t p undo).Agree ∧
        (b'.undoBoardMove s t p undo).kingSq = b.kingSq ∧
        (b'.undoBoardMove s t p undo).hand = b.hand := by
    intro s t p hm hboard hking hhand hcap
    rw [board_doBoardMove b u p hm.ne] at hboard
    rw [kingSq_doBoardMove b u p hm.ne] at hking
    obtain ⟨h1, h2⟩ := undoBoardMove_men ha ha' hm hboard hcap
    refine ⟨h1, h2, undoBoardMove_kingSq ha hm ?_ hking hcap, ?_⟩
    · rw [hboard, Function.update_self]
    · rw [undoBoardMove_hand hcap, hhand, hand_doBoardMove, hand_doCapture, hturn, hprev]
      split
      · rfl
      · rw [Function.update_idem, Function.update_eq_self]
  cases m with
  | normal s t => exact hmove s t false hm hboard hking hhand hcap
  | promotion s t => exact hmove s t true hm hboard hking hhand hcap
  | drop pt t =>
    obtain ⟨ht, hpt⟩ := hm
    have hboard' : b'.board = Function.update b.board t ⟨b.sideToMove, pt⟩ := hboard
    have hnk : pt ≠ .king := by
      rintro rfl
      cases hpt
    have hking' : b'.kingSq = b.kingSq := hking.trans (if_neg hnk)
    have hhand' : b'.hand =
        Function.update b.hand b.sideToMove ((b.hand b.sideToMove).sub pt) := hhand
    refine ⟨?_, (ha'.removePiece t).congr rfl rfl rfl rfl, hking', ?_⟩
    · change Function.update b'.board t .none = b.board
      rw [hboard', Function.update_idem, ← ht, Function.update_eq_self]
    · change Function.update b'.hand b'.sideToMove undo.prevHand = b.hand
      rw [hhand', hturn, hprev, Function.update_idem, Function.update_eq_self]

/-- `UndoMove` takes back a move of any mode exactly. -/
theorem undoMove_doMoveInternal {m : Move} {u : Bool} {g : Option Bool} (ha : b.Agree)
    (hm : b.CanPlay m) :
    (b.doMoveInternal m u g).1.undoMove m (b.doMoveInternal m u g).2 = b := by
  have hrec := undo_doMoveInternal b m u g
  set r := b.doMoveInternal m u g with hr
  set b' : ShogiBoard := { r.1 with sideToMove := ~~~r.1.sideToMove, ply := r.1.ply - 1 } with hb'
  have hturn : b'.sideToMove = b.sideToMove := by
    rw [hb', hr]
    simp only [sideToMove_doMoveInternal, Color.compl_compl]
  have ha' : b'.Agree := (agree_doMoveInternal b m u g ha hm).congr rfl rfl rfl rfl
  obtain ⟨hboard, hagree, hking, hhand⟩ := undoMen_applyMove (u := u) ha hm ha'
    (board_doMoveInternal b m u g) (kingSq_doMoveInternal b m u g) (hand_doMoveInternal b m u g)
    hturn (show r.2.captured = b.capturedBy m by rw [hrec])
    (show r.2.prevHand = b.hand b.sideToMove by rw [hrec])
  obtain ⟨hrturn, hrply, hrhash, hrcc, hrhist⟩ := undoMen_rest b' r.2 m
  obtain ⟨hcolor, htype⟩ := hagree.bitboards_eq ha hboard
  have hupd : r.2.updatedAuxiliary = u := by rw [hrec]
  have hply : r.1.ply = b.ply + 1 := ply_doMoveInternal b m u g
  have hhist : r.1.history = (b.pushHistory u).history := history_doMoveInternal b m u g
  have hb'hist : (b'.undoMen m r.2).history = (b.pushHistory u).history := hrhist.trans hhist
  have hplyb : (b'.undoMen m r.2).ply = b.ply := by
    rw [hrply]
    change r.1.ply - 1 = b.ply
    omega
  change (let c := b'.undoMen m r.2
    let c := if r.2.updatedAuxiliary then
      { c with
        hash := r.2.prevHash
        continuousCheck := Function.update c.continuousCheck c.sideToMove
          r.2.prevContinuousCheck }
      else c
    if r.2.updatedAuxiliary && !c.history.isEmpty then { c with history := c.history.dropLast }
    else c) = b
  cases u with
  | false =>
    simp only [hupd, Bool.false_and, if_neg, Bool.false_eq_true, not_false_eq_true]
    refine ShogiBoard.ext hboard htype hcolor hhand hking (hrturn.trans hturn) hplyb ?_ ?_ hb'hist
    · exact hrhash.trans (hash_doMoveInternal b m false g)
    · exact hrcc.trans (continuousCheck_doMoveInternal_false b m g)
  | true =>
    have hpush : (b.pushHistory true).history =
        b.history ++ [⟨b.hash, (b.hand .black).raw, (b.hand .white).raw⟩] := rfl
    have hne : (!(b'.undoMen m r.2).history.isEmpty) = true := by
      rw [hb'hist, hpush]
      simp
    simp only [hupd, Bool.true_and, if_true, hne]
    refine ShogiBoard.ext hboard htype hcolor hhand hking (hrturn.trans hturn) hplyb ?_ ?_ ?_
    · rw [hrec]
    · change Function.update (b'.undoMen m r.2).continuousCheck (b'.undoMen m r.2).sideToMove
        r.2.prevContinuousCheck = b.continuousCheck
      have hcc : (b'.undoMen m r.2).continuousCheck = r.1.continuousCheck := hrcc
      rw [hcc, hr, continuousCheck_doMoveInternal_true, hrturn, hturn, Function.update_idem, ← hr,
        hrec, Function.update_eq_self]
    · change (b'.undoMen m r.2).history.dropLast = b.history
      rw [hb'hist, hpush, List.dropLast_concat]

end Undo

end ShogiBoard

end Shogi
