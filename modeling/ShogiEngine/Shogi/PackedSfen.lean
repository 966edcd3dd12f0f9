import ShogiEngine.Library.BitTape
import ShogiEngine.Shogi.Sfen

/-!
# Reading a packed SFEN

`SetFromPackedSfen` of `shogi/packed_sfen.cc`: the bit reader, the Huffman codes and the decoder.

## Main definitions

- `Reader`: the bit reader, a cursor that fails past bit 256
- `readBoardPiece`, `readHandPiece`, `setFromPackedSfen`

## Main results

- `fresh_of_setFromPackedSfen`: whatever is decoded is a consistent board with nothing remembered
-/

namespace Shogi

/-- The 32 bytes of a packed position. -/
structure PackedSfen where
  data : Fin 32 → BitVec 8

namespace PackedSfen

/-- A bit of the stream, the least significant bit of each byte first. -/
def bit (p : PackedSfen) (i : Nat) : Bool :=
  if h : i < 256 then (p.data ⟨i / 8, by omega⟩).getLsbD (i % 8) else false

/-- `BitReader`: the state is the cursor. -/
abbrev Reader := StateT Nat Option

/-- `BitReader::Read`. -/
def read (p : PackedSfen) (bits : Nat) : Reader Nat := fun cursor =>
  if cursor + bits > 256 then none
  else
    some ((List.range bits).foldl (fun value i => value ||| ((p.bit (cursor + i)).toNat <<< i)) 0,
      cursor + bits)

/-- `BitReader::ReadBit`. -/
def readBit (p : PackedSfen) : Reader Bool := do
  let bit ← p.read 1
  pure (bit ≠ 0)

/-! ## Huffman codes -/

structure HuffmanCode where
  code : Nat
  bits : Nat
  deriving DecidableEq, Repr

/-- `kBoardCodes`, by raw piece type. -/
def kBoardCodes : PieceType → HuffmanCode
  | .none => ⟨0x00, 1⟩
  | .pawn => ⟨0x01, 2⟩
  | .lance => ⟨0x03, 4⟩
  | .knight => ⟨0x0b, 4⟩
  | .silver => ⟨0x07, 4⟩
  | .bishop => ⟨0x1f, 6⟩
  | .rook => ⟨0x3f, 6⟩
  | _ => ⟨0x0f, 5⟩

/-- The type that a board code stands for, searched in the order of the table. -/
def boardCode? (bits code : Nat) : Option PieceType :=
  (.none :: PieceType.handTypes).find? fun raw =>
    (kBoardCodes raw).bits = bits ∧ (kBoardCodes raw).code = code

/-- The type that a hand code stands for: a board code without its first bit. -/
def handCode? (bits code : Nat) : Option PieceType :=
  PieceType.handTypes.find? fun raw =>
    (kBoardCodes raw).bits - 1 = bits ∧ (kBoardCodes raw).code >>> 1 = code

/-- The loop that reads a code bit by bit until the table knows it; at most `n` more bits, the
next of them being the `bits`-th. -/
def readCode (p : PackedSfen) (table : Nat → Nat → Option PieceType) :
    Nat → Nat → Nat → Reader PieceType
  | 0, _, _ => failure
  | n + 1, bits, code => do
    let bit ← p.read 1
    let code := code ||| (bit <<< (bits - 1))
    match table bits code with
    | some pt => pure pt
    | none => readCode p table n (bits + 1) code

/-- `ReadBoardType`. -/
def readBoardType (p : PackedSfen) : Reader PieceType := p.readCode boardCode? 6 1 0

/-- The promotion bit, which a gold does not have. -/
def readPromoted (p : PackedSfen) (raw : PieceType) : Reader Bool :=
  if raw ≠ .gold then p.readBit else pure false

/-- `ReadBoardPiece`. -/
def readBoardPiece (p : PackedSfen) : Reader Piece := do
  let raw ← p.readBoardType
  if raw = .none then pure .none
  else
    let promoted ← p.readPromoted raw
    let white ← p.readBit
    pure ⟨if white then .white else .black, if promoted then raw.promote else raw⟩

/-- What `ReadHandPiece` returns. -/
structure HandPiece where
  raw : PieceType
  color : Color
  pieceBox : Bool

/-- `ReadHandPiece`. -/
def readHandPiece (p : PackedSfen) : Reader HandPiece := do
  let decoded ← p.readCode handCode? 5 1 0
  let promoted ← p.readPromoted decoded
  let white ← p.readBit
  pure ⟨decoded, if white then .white else .black, promoted⟩

/-! ## The decoder -/

/-- The board loop of `SetFromPackedSfen`, over the squares that hold no king. -/
def readSquares (p : PackedSfen) (blackKing whiteKing : Nat) :
    List Square → ShogiBoard → Reader ShogiBoard
  | [], b => pure b
  | s :: l, b =>
    if s.val = blackKing ∨ s.val = whiteKing then readSquares p blackKing whiteKing l b
    else do
      let piece ← p.readBoardPiece
      readSquares p blackKing whiteKing l (if !piece.isNone then b.putPiece s piece else b)

/-- The hand loop: every piece takes at least one bit, so 257 passes are enough. -/
def readHands (p : PackedSfen) : Nat → ShogiBoard → Reader ShogiBoard
  | 0, _ => failure
  | n + 1, b => fun cursor =>
    if cursor < 256 then
      (do
        let piece ← p.readHandPiece
        readHands p n
          (if !piece.pieceBox then
            b.setHand piece.color ((b.hand piece.color).add piece.raw)
          else b)) cursor
    else if cursor ≠ 256 then none
    else some (b, cursor)

/-- A king goes on the board if its square is one. -/
def placeKing (b : ShogiBoard) (c : Color) (k : Nat) : ShogiBoard :=
  if k < 81 then b.putPiece (.fromIdx k) ⟨c, .king⟩ else b

/-- The decoder of `SetFromPackedSfen`. -/
def decode (p : PackedSfen) (gamePly : Int) : Reader ShogiBoard := do
  let turn ← p.read 1
  let blackKing ← p.read 7
  let whiteKing ← p.read 7
  if turn > 1 ∨ blackKing > 81 ∨ whiteKing > 81 ∨ (blackKing < 81 ∧ blackKing = whiteKing) then
    failure
  else
    let b := { ShogiBoard.new with
      sideToMove := if turn = 0 then .black else .white
      ply := max 1 gamePly }
    let b := placeKing b .black blackKing
    let b := placeKing b .white whiteKing
    let b ← p.readSquares blackKing whiteKing (List.finRange 81) b
    let b ← p.readHands 257 b
    pure b.computeHash.clearHistory

end PackedSfen

/-- `SetFromPackedSfen`, `none` where it returns `false`. -/
def ShogiBoard.setFromPackedSfen (p : PackedSfen) (gamePly : Int) : Option ShogiBoard :=
  ((p.decode gamePly).run 0).map Prod.fst

namespace PackedSfen

/-! ## What is decoded -/

section Decode

open BitTape (bind_eq_some pure_eq_some failure_ne_some)

variable {p : PackedSfen} {cursor cursor' : Nat}

/-- A code that was read is in the table. -/
theorem exists_of_readCode {table : Nat → Nat → Option PieceType} {n bits code : Nat}
    {r : PieceType × Nat} (h : p.readCode table n bits code cursor = some r) :
    ∃ bits code, table bits code = some r.1 := by
  induction n generalizing bits code cursor with
  | zero => exact absurd h failure_ne_some
  | succ n ih =>
    obtain ⟨bit, c, -, h⟩ := bind_eq_some.mp h
    cases hpt : table bits (code ||| (bit <<< (bits - 1))) with
    | some pt =>
      simp only [hpt] at h
      cases pure_eq_some.mp h
      exact ⟨_, _, hpt⟩
    | none =>
      simp only [hpt] at h
      exact ih h

theorem handPiece_of_boardCode? {bits code : Nat} {pt : PieceType}
    (h : boardCode? bits code = some pt) : pt = .none ∨ pt.isHandPiece = true := by
  have := List.mem_of_find?_eq_some h
  rwa [List.mem_cons, PieceType.mem_handTypes] at this

theorem isValid_of_promoted : ∀ (raw : PieceType) (promoted : Bool), raw.isHandPiece = true →
    (raw = .gold → promoted = false) → (if promoted then raw.promote else raw).isValid = true ∧
      (if promoted then raw.promote else raw) ≠ .king := by
  decide

/-- The men on the board are proper and no kings. -/
theorem valid_of_readBoardPiece {r : Piece × Nat} (h : p.readBoardPiece cursor = some r)
    (hn : r.1 ≠ .none) : r.1.type.isValid = true ∧ r.1.type ≠ .king := by
  obtain ⟨raw, c, hraw, h⟩ := bind_eq_some.mp h
  obtain ⟨bits, code, htable⟩ := exists_of_readCode hraw
  split at h
  · cases pure_eq_some.mp h
    exact absurd rfl hn
  · rename_i hne
    have hhand := (handPiece_of_boardCode? htable).resolve_left hne
    obtain ⟨promoted, c', hprom, h⟩ := bind_eq_some.mp h
    obtain ⟨white, c'', -, h⟩ := bind_eq_some.mp h
    cases pure_eq_some.mp h
    refine isValid_of_promoted raw promoted hhand ?_
    rintro rfl
    exact (congrArg Prod.fst (pure_eq_some.mp hprom)).symm

theorem consistent_readSquares {blackKing whiteKing : Nat} {l : List Square} {b : ShogiBoard}
    {r : ShogiBoard × Nat} (hb : b.Consistent) (hl : l.Nodup)
    (hempty : ∀ s ∈ l, ¬ (s.val = blackKing ∨ s.val = whiteKing) → b.board s = .none)
    (h : p.readSquares blackKing whiteKing l b cursor = some r) : r.1.Consistent := by
  induction l generalizing b cursor with
  | nil =>
    cases pure_eq_some.mp h
    exact hb
  | cons s l ih =>
    obtain ⟨hs, hl⟩ := List.nodup_cons.mp hl
    have hrest : ∀ x ∈ l, ¬ (x.val = blackKing ∨ x.val = whiteKing) → b.board x = .none :=
      fun x hx => hempty x (List.mem_cons_of_mem _ hx)
    rw [readSquares] at h
    split at h
    · exact ih hb hl hrest h
    · rename_i hking
      obtain ⟨piece, c, hpiece, h⟩ := bind_eq_some.mp h
      by_cases hn : piece = .none
      · rw [if_neg (by simp [Piece.isNone_iff.mpr hn])] at h
        exact ih hb hl hrest h
      · rw [if_pos (by simpa using fun e => hn (Piece.isNone_iff.mp e))] at h
        obtain ⟨hvalid, hnk⟩ := valid_of_readBoardPiece hpiece hn
        refine ih (hb.putPiece (hempty s List.mem_cons_self hking) hvalid
          fun e => absurd e hnk) hl (fun x hx hxk => ?_) h
        have hxs : x ≠ s := fun e => hs (e ▸ hx)
        simp only [ShogiBoard.putPiece, Function.update_of_ne hxs]
        exact hrest x hx hxk

/-- The hand loop changes the hands only. -/
theorem readHands_eq {n : Nat} {b : ShogiBoard} {r : ShogiBoard × Nat}
    (h : p.readHands n b cursor = some r) : r.1 = { b with hand := r.1.hand } := by
  induction n generalizing b cursor with
  | zero => exact absurd h failure_ne_some
  | succ n ih =>
    rw [readHands] at h
    dsimp only at h
    split at h
    · obtain ⟨piece, c, -, h⟩ := bind_eq_some.mp h
      refine (ih h).trans ?_
      split <;> rfl
    · split at h
      · cases h
      · cases h
        rfl

theorem consistent_placeKing {b : ShogiBoard} {c : Color} {k : Nat} (hb : b.Consistent)
    (hempty : k < 81 → b.board (.fromIdx k) = .none) (hking : b.kingSq c = none) :
    (placeKing b c k).Consistent := by
  rw [placeKing]
  split
  · rename_i hk
    exact hb.putPiece (hempty hk) rfl fun _ => hking
  · exact hb

theorem fromIdx_val {k : Nat} (hk : k < 81) : (Square.fromIdx k).val = k := Nat.mod_eq_of_lt hk

/-- Apart from its own square, a king changes nothing on the board. -/
theorem board_placeKing {b : ShogiBoard} {c : Color} {k : Nat} {s : Square} (hs : s.val ≠ k) :
    (placeKing b c k).board s = b.board s := by
  rw [placeKing]
  split
  · rename_i hk
    refine Function.update_of_ne (fun e => hs ?_) _ _
    rw [e, fromIdx_val hk]
  · rfl

theorem fresh_of_decode {gamePly : Int} {r : ShogiBoard × Nat}
    (h : p.decode gamePly cursor = some r) : r.1.Fresh := by
  obtain ⟨turn, c₁, -, h⟩ := bind_eq_some.mp h
  obtain ⟨blackKing, c₂, -, h⟩ := bind_eq_some.mp h
  obtain ⟨whiteKing, c₃, -, h⟩ := bind_eq_some.mp h
  split at h
  · exact absurd h failure_ne_some
  · rename_i hkings
    push Not at hkings
    obtain ⟨-, -, -, hne⟩ := hkings
    obtain ⟨b, c₄, hsquares, h⟩ := bind_eq_some.mp h
    obtain ⟨b', c₅, hhands, h⟩ := bind_eq_some.mp h
    cases pure_eq_some.mp h
    have hnew : ({ ShogiBoard.new with
        sideToMove := if turn = 0 then .black else .white
        ply := max 1 gamePly } : ShogiBoard).Consistent :=
      ShogiBoard.consistent_new.congr rfl rfl rfl rfl
    have hblack := consistent_placeKing (c := .black) (k := blackKing) hnew (fun _ => rfl) rfl
    have hwhite := consistent_placeKing (c := .white) (k := whiteKing) hblack
      (by
        intro hk
        rw [board_placeKing]
        · rfl
        · rw [fromIdx_val hk]
          rintro rfl
          exact hne hk rfl)
      (by
        rw [placeKing]
        split <;> rfl)
    have hb : b.Consistent := by
      refine consistent_readSquares hwhite (List.nodup_finRange 81) (fun s _ hs => ?_) hsquares
      push Not at hs
      rw [board_placeKing hs.2, board_placeKing hs.1]
      rfl
    have hb' : b'.Consistent := by
      have hmen : b' = { b with hand := b'.hand } := readHands_eq hhands
      rw [hmen]
      exact hb.congr rfl rfl rfl rfl
    exact ⟨hb'.congr rfl rfl rfl rfl, rfl, rfl, fun _ => rfl⟩

end Decode

end PackedSfen

/-- Whatever a packed SFEN sets up is fresh. -/
theorem ShogiBoard.fresh_of_setFromPackedSfen {p : PackedSfen} {gamePly : Int} {b : ShogiBoard}
    (h : setFromPackedSfen p gamePly = some b) : b.Fresh := by
  obtain ⟨r, hr, rfl⟩ := Option.map_eq_some_iff.mp h
  exact PackedSfen.fresh_of_decode hr

end Shogi
