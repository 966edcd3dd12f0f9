import Mathlib

/-!
# Shogi types

The value types of the engine: colours, piece types, squares, hands and moves, as
`shogi/types.h` and the head of `shogi/board.h` define them.

Squares are numbered file by file, `square = file * 9 + rank`, so that one step along a
file changes the index by one and one step along a rank changes it by nine. A half turn of
the board is `80 - square`.
-/

namespace Shogi

/-! ## Colours -/

/-- The two sides; `black` (sente) plays up the board, towards rank `a`. -/
inductive Color
  | black
  | white
  deriving DecidableEq, Repr

namespace Color

/-- `operator~`: the other side. -/
protected def compl : Color → Color
  | black => white
  | white => black

instance : Complement Color := ⟨Color.compl⟩

/-- The value of the enumeration. -/
def idx : Color → Nat
  | black => 0
  | white => 1

instance : Fintype Color := ⟨{black, white}, fun c => by cases c <;> decide⟩

@[simp] theorem compl_black : ~~~black = white := rfl

@[simp] theorem compl_white : ~~~white = black := rfl

@[simp] theorem compl_compl (c : Color) : ~~~(~~~c) = c := by
  cases c <;> rfl

@[simp] theorem compl_ne (c : Color) : ~~~c ≠ c := by
  cases c <;> decide

@[simp] theorem ne_compl (c : Color) : c ≠ ~~~c := (compl_ne c).symm

theorem eq_or_eq_compl (c d : Color) : d = c ∨ d = ~~~c := by
  cases c <;> cases d <;> decide

theorem ne_iff_eq_compl {c d : Color} : c ≠ d ↔ c = ~~~d := by
  cases c <;> cases d <;> decide

theorem compl_inj {c d : Color} : ~~~c = ~~~d ↔ c = d := by
  cases c <;> cases d <;> decide

end Color

/-! ## Piece types -/

/-- Piece types in the order of their four-bit index. Promotion sets bit `8` of the index.
`reserved` is index 15: it is what `Promote` makes of a gold, and `IsValid` excludes it. -/
inductive PieceType
  | none
  | pawn
  | lance
  | knight
  | silver
  | bishop
  | rook
  | gold
  | king
  | proPawn
  | proLance
  | proKnight
  | proSilver
  | horse
  | dragon
  | reserved
  deriving DecidableEq, Repr

namespace PieceType

/-- The raw index, `PieceType::idx`. -/
def idx : PieceType → Nat
  | none => 0
  | pawn => 1
  | lance => 2
  | knight => 3
  | silver => 4
  | bishop => 5
  | rook => 6
  | gold => 7
  | king => 8
  | proPawn => 9
  | proLance => 10
  | proKnight => 11
  | proSilver => 12
  | horse => 13
  | dragon => 14
  | reserved => 15

instance : Fintype PieceType :=
  ⟨{none, pawn, lance, knight, silver, bishop, rook, gold, king, proPawn, proLance, proKnight,
    proSilver, horse, dragon, reserved}, fun pt => by cases pt <;> decide⟩

/-- `PieceType::FromIdx` on the low four bits. -/
def fromIdx (i : Nat) : PieceType :=
  match i % 16 with
  | 0 => none
  | 1 => pawn
  | 2 => lance
  | 3 => knight
  | 4 => silver
  | 5 => bishop
  | 6 => rook
  | 7 => gold
  | 8 => king
  | 9 => proPawn
  | 10 => proLance
  | 11 => proKnight
  | 12 => proSilver
  | 13 => horse
  | 14 => dragon
  | _ => reserved

@[simp] theorem fromIdx_idx (pt : PieceType) : fromIdx pt.idx = pt := by
  cases pt <;> rfl

theorem idx_lt (pt : PieceType) : pt.idx < 16 := by
  cases pt <;> decide

/-- Can this type be held in hand? -/
def isHandPiece (pt : PieceType) : Bool := 1 ≤ pt.idx && pt.idx ≤ 7

def isPromoted (pt : PieceType) : Bool := 9 ≤ pt.idx

/-- Set the promotion bit. -/
def promote (pt : PieceType) : PieceType := fromIdx (pt.idx ||| 8)

/-- Clear the promotion bit. On a king, whose index is the promotion bit alone, this gives
`none`. -/
def unpromote (pt : PieceType) : PieceType := fromIdx (pt.idx &&& 7)

/-- Pawn, lance, knight, silver, bishop and rook promote. -/
def canPromote (pt : PieceType) : Bool := 1 ≤ pt.idx && pt.idx ≤ 6

def isValid (pt : PieceType) : Bool := 1 ≤ pt.idx && pt.idx ≤ 14 && pt.idx != 15

/-- The droppable types in the order the generators loop over them, `kPawn` to `kGold`. -/
def handTypes : List PieceType := [pawn, lance, knight, silver, bishop, rook, gold]

theorem mem_handTypes {pt : PieceType} : pt ∈ handTypes ↔ pt.isHandPiece = true := by
  cases pt <;> decide

theorem nodup_handTypes : handTypes.Nodup := by decide

theorem unpromote_promote {pt : PieceType} (h : pt.canPromote = true) :
    pt.promote.unpromote = pt := by
  cases pt <;> first | rfl | cases h

theorem isValid_promote {pt : PieceType} (h : pt.canPromote = true) :
    pt.promote.isValid = true := by
  cases pt <;> first | rfl | cases h

theorem isValid_of_isHandPiece {pt : PieceType} (h : pt.isHandPiece = true) :
    pt.isValid = true := by
  cases pt <;> first | rfl | cases h

end PieceType

/-! ## Squares -/

/-- A square of the board. `kSquareNone` (index 81) is modelled by `Option.none` where the
source can hold it, which is only in a king square. -/
abbrev Square := Fin 81

namespace Square

/-- File index; file 0 is the rightmost column from Black's side. -/
def file (s : Square) : Nat := s.val / 9

/-- Rank index; rank 0 is the top row from Black's side. -/
def rank (s : Square) : Nat := s.val % 9

theorem file_lt (s : Square) : s.file < 9 := by
  have := s.isLt
  simp only [file]
  omega

theorem rank_lt (s : Square) : s.rank < 9 := by
  simp only [rank]
  omega

theorem val_eq (s : Square) : s.val = s.file * 9 + s.rank := by
  simp only [file, rank]
  omega

theorem ext_coord {s t : Square} (hf : s.file = t.file) (hr : s.rank = t.rank) : s = t := by
  apply Fin.ext
  rw [val_eq s, val_eq t, hf, hr]

theorem ne_iff_coord {s t : Square} : s ≠ t ↔ s.file ≠ t.file ∨ s.rank ≠ t.rank := by
  constructor
  · intro h
    by_contra hc
    push Not at hc
    exact h (ext_coord hc.1 hc.2)
  · rintro h rfl
    omega

/-- `Square::FromIdx` on the indices of squares. -/
def fromIdx (i : Nat) : Square := ⟨i % 81, Nat.mod_lt i (by decide)⟩

/-- `Square(File, Rank)`. -/
def ofCoord (f r : Nat) (hf : f < 9) (hr : r < 9) : Square :=
  ⟨f * 9 + r, by omega⟩

@[simp] theorem file_ofCoord {f r : Nat} (hf : f < 9) (hr : r < 9) :
    (ofCoord f r hf hr).file = f := by
  simp only [file, ofCoord]
  omega

@[simp] theorem rank_ofCoord {f r : Nat} (hf : f < 9) (hr : r < 9) :
    (ofCoord f r hf hr).rank = r := by
  simp only [rank, ofCoord]
  omega

/-- The half turn of the board. -/
def flipped (s : Square) : Square := ⟨80 - s.val, by omega⟩

@[simp] theorem flipped_flipped (s : Square) : s.flipped.flipped = s := by
  apply Fin.ext
  have := s.isLt
  simp only [flipped]
  omega

@[simp] theorem file_flipped (s : Square) : s.flipped.file = 8 - s.file := by
  have := s.isLt
  simp only [flipped, file]
  omega

@[simp] theorem rank_flipped (s : Square) : s.flipped.rank = 8 - s.rank := by
  have := s.isLt
  simp only [flipped, rank]
  omega

theorem flipped_inj {s t : Square} : s.flipped = t.flipped ↔ s = t :=
  ⟨fun h => by rw [← flipped_flipped s, h, flipped_flipped], fun h => by rw [h]⟩

theorem flipped_eq_iff {s t : Square} : s.flipped = t ↔ s = t.flipped :=
  ⟨fun h => by rw [← h, flipped_flipped], fun h => by rw [h, flipped_flipped]⟩

/-- `Rank::InPromotionZone`: ranks 0 to 2 for Black, 6 to 8 for White. -/
def inPromotionZone (s : Square) (c : Color) : Bool :=
  match c with
  | .black => s.rank ≤ 2
  | .white => 6 ≤ s.rank

end Square

/-! ## Hands -/

/-- Captured men, packed into one 32-bit word with a few unused bits above each count. -/
@[ext]
structure Hand where
  data : BitVec 32
  deriving DecidableEq, Repr

namespace Hand

/-- The lowest bit of the count of each type; 0 for types that are never in hand. -/
def kBits : PieceType → Nat
  | .pawn => 0
  | .lance => 8
  | .knight => 12
  | .silver => 16
  | .bishop => 20
  | .rook => 24
  | .gold => 28
  | _ => 0

/-- The mask of each count, before it is shifted into place. -/
def kMask : PieceType → BitVec 32
  | .pawn => 31#32
  | .lance => 7#32
  | .knight => 7#32
  | .silver => 7#32
  | .bishop => 3#32
  | .rook => 3#32
  | .gold => 7#32
  | _ => 0#32

/-- The mask of each count, in place. -/
def kMask2 : PieceType → BitVec 32
  | .pawn => 31#32 <<< 0
  | .lance => 7#32 <<< 8
  | .knight => 7#32 <<< 12
  | .silver => 7#32 <<< 16
  | .bishop => 3#32 <<< 20
  | .rook => 3#32 <<< 24
  | .gold => 7#32 <<< 28
  | _ => 0#32

/-- One man of each type, in place. -/
def kOne : PieceType → BitVec 32
  | .pawn => 1#32 <<< 0
  | .lance => 1#32 <<< 8
  | .knight => 1#32 <<< 12
  | .silver => 1#32 <<< 16
  | .bishop => 1#32 <<< 20
  | .rook => 1#32 <<< 24
  | .gold => 1#32 <<< 28
  | _ => 0#32

/-- The empty hand. -/
def empty : Hand := ⟨0#32⟩

/-- Number of men of the given type. -/
def count (h : Hand) (pt : PieceType) : Nat := ((h.data >>> kBits pt) &&& kMask pt).toNat

/-- Is at least one man of the given type held? -/
def has (h : Hand) (pt : PieceType) : Bool := (h.data &&& kMask2 pt) != 0#32

def add (h : Hand) (pt : PieceType) : Hand := ⟨h.data + kOne pt⟩

def sub (h : Hand) (pt : PieceType) : Hand := ⟨h.data - kOne pt⟩

/-- The raw word, used for hashing and comparison. -/
def raw (h : Hand) : BitVec 32 := h.data

/-- The guard bits just above each count. -/
def kBorrowMask : BitVec 32 :=
  (1#32 <<< 5) ||| (1#32 <<< 11) ||| (1#32 <<< 15) ||| (1#32 <<< 19) ||| (1#32 <<< 22) |||
    (1#32 <<< 26) ||| (1#32 <<< 31)

/-- Does this hand hold at least as many men of every type as `other`? A count that is too
small borrows into its guard bit. -/
def dominates (h other : Hand) : Bool := ((h.data - other.data) &&& kBorrowMask) == 0#32

end Hand

/-! ## Moves -/

/-- A move. The source packs a move into 16 bits (`Move.raw`); its null move, the word 0,
decodes as the move from square 0 to itself, which no generator produces. -/
inductive Move
  | normal (src dst : Square)
  | promotion (src dst : Square)
  | drop (pt : PieceType) (dst : Square)
  deriving DecidableEq, Repr

namespace Move

/-- The destination square, `to()`. -/
def dst : Move → Square
  | normal _ t => t
  | promotion _ t => t
  | drop _ t => t

/-- The source square of a board move, `from()`. -/
def src : Move → Option Square
  | normal s _ => some s
  | promotion s _ => some s
  | drop _ _ => none

def isDrop : Move → Bool
  | drop _ _ => true
  | _ => false

def isPromotion : Move → Bool
  | promotion _ _ => true
  | _ => false

/-- The half turn of a move. -/
def flip : Move → Move
  | normal s t => normal s.flipped t.flipped
  | promotion s t => promotion s.flipped t.flipped
  | drop pt t => drop pt t.flipped

@[simp] theorem flip_flip (m : Move) : m.flip.flip = m := by
  cases m <;> simp [flip]

/-- Bit 14 marks a drop and bit 15 a promotion. -/
def kDropFlag : BitVec 16 := 1#16 <<< 14

def kPromoteFlag : BitVec 16 := 1#16 <<< 15

def kFlagMask : BitVec 16 := kDropFlag ||| kPromoteFlag

/-- The 16-bit word of a move: destination in bits 0 to 6, source square or dropped type in
bits 7 to 13, flags above. -/
def raw : Move → BitVec 16
  | normal s t => BitVec.ofNat 16 t.val ||| (BitVec.ofNat 16 s.val <<< 7)
  | promotion s t => BitVec.ofNat 16 t.val ||| (BitVec.ofNat 16 s.val <<< 7) ||| kPromoteFlag
  | drop pt t => BitVec.ofNat 16 t.val ||| (BitVec.ofNat 16 pt.idx <<< 7) ||| kDropFlag

/-- `Move::Flip` on the packed word. -/
def flipRaw (data : BitVec 16) : BitVec 16 :=
  if data &&& kDropFlag = 0#16 then
    let f : BitVec 8 := 80#8 - ((data >>> 7) &&& 0x7F#16).setWidth 8
    let t : BitVec 8 := 80#8 - (data &&& 0x7F#16).setWidth 8
    (data &&& kFlagMask) ||| t.setWidth 16 ||| (f.setWidth 16 <<< 7)
  else
    let t : BitVec 8 := 80#8 - (data &&& 0x7F#16).setWidth 8
    (data &&& ~~~0x7F#16) ||| t.setWidth 16

/-- What the packed word of a destination contributes to each field. -/
private theorem raw_dst_fields : ∀ t : Square,
    BitVec.ofNat 16 t.val &&& kDropFlag = 0#16 ∧ BitVec.ofNat 16 t.val &&& kFlagMask = 0#16 ∧
    BitVec.ofNat 16 t.val &&& 0x7F#16 = BitVec.ofNat 16 t.val ∧
    BitVec.ofNat 16 t.val &&& ~~~0x7F#16 = 0#16 ∧
    (BitVec.ofNat 16 t.val >>> 7) &&& 0x7F#16 = 0#16 ∧
    (80#8 - (BitVec.ofNat 16 t.val).setWidth 8).setWidth 16 =
      BitVec.ofNat 16 (Square.flipped t).val := by
  decide +kernel

/-- What the packed word of a source square contributes to each field. -/
private theorem raw_src_fields : ∀ s : Square,
    (BitVec.ofNat 16 s.val <<< 7) &&& kDropFlag = 0#16 ∧
    (BitVec.ofNat 16 s.val <<< 7) &&& kFlagMask = 0#16 ∧
    (BitVec.ofNat 16 s.val <<< 7) &&& 0x7F#16 = 0#16 ∧
    ((BitVec.ofNat 16 s.val <<< 7) >>> 7) &&& 0x7F#16 = BitVec.ofNat 16 s.val := by
  decide +kernel

/-- What the packed word of a dropped type contributes to each field. -/
private theorem raw_drop_fields : ∀ pt : PieceType,
    ((BitVec.ofNat 16 pt.idx <<< 7 ||| kDropFlag) &&& kDropFlag = kDropFlag) ∧
    (BitVec.ofNat 16 pt.idx <<< 7 ||| kDropFlag) &&& 0x7F#16 = 0#16 ∧
    (BitVec.ofNat 16 pt.idx <<< 7 ||| kDropFlag) &&& ~~~0x7F#16 =
      BitVec.ofNat 16 pt.idx <<< 7 ||| kDropFlag := by
  decide +kernel

/-- Flipping a move flips its packed word. -/
theorem raw_flip (m : Move) : m.flip.raw = flipRaw m.raw := by
  have hp : kPromoteFlag &&& kDropFlag = 0#16 ∧ kPromoteFlag &&& kFlagMask = kPromoteFlag ∧
      kPromoteFlag &&& 0x7F#16 = 0#16 ∧ (kPromoteFlag >>> 7) &&& 0x7F#16 = 0#16 := by decide
  cases m with
  | normal s t =>
    obtain ⟨t1, t2, t3, -, t5, t6⟩ := raw_dst_fields t
    obtain ⟨s1, s2, s3, s4⟩ := raw_src_fields s
    have hs := (raw_dst_fields s).2.2.2.2.2
    simp only [flip, raw, flipRaw, BitVec.and_or_distrib_right, BitVec.ushiftRight_or_distrib,
      t1, t2, t3, t5, t6, s1, s2, s3, s4, hs, BitVec.or_zero, BitVec.zero_or, if_true]
  | promotion s t =>
    obtain ⟨t1, t2, t3, -, t5, t6⟩ := raw_dst_fields t
    obtain ⟨s1, s2, s3, s4⟩ := raw_src_fields s
    have hs := (raw_dst_fields s).2.2.2.2.2
    obtain ⟨p1, p2, p3, p4⟩ := hp
    simp only [flip, raw, flipRaw, BitVec.and_or_distrib_right, BitVec.ushiftRight_or_distrib,
      t1, t2, t3, t5, t6, s1, s2, s3, s4, hs, p1, p2, p3, p4, BitVec.or_zero, BitVec.zero_or,
      if_true]
    ac_rfl
  | drop pt t =>
    obtain ⟨t1, -, t3, t4, -, t6⟩ := raw_dst_fields t
    obtain ⟨d1, d2, d3⟩ := raw_drop_fields pt
    have hd : kDropFlag ≠ 0#16 := by decide
    simp only [flip, raw, flipRaw, BitVec.or_assoc]
    rw [BitVec.and_or_distrib_right, t1, d1, BitVec.zero_or, if_neg hd,
      BitVec.and_or_distrib_right, t4, d3, BitVec.and_or_distrib_right, d2, t3, BitVec.or_zero, t6,
      BitVec.zero_or, BitVec.or_comm]

end Move

/-- The source's fixed-size move buffer, as the list of the moves pushed so far. -/
abbrev MoveList := List Move

/-! ## Pieces -/

/-- A man with its colour, `val = 16 * colour + type`. -/
@[ext]
structure Piece where
  color : Color
  type : PieceType
  deriving DecidableEq, Repr

namespace Piece

/-- The empty square, `val = 0`. -/
def none : Piece := ⟨.black, .none⟩

/-- The packed value of the source. -/
def val (p : Piece) : Nat :=
  match p.color with
  | .black => p.type.idx
  | .white => 16 + p.type.idx

def isNone (p : Piece) : Bool := p.val == 0

def promote (p : Piece) : Piece := ⟨p.color, p.type.promote⟩

/-- Clear the promotion bit of the packed value. -/
def unpromote (p : Piece) : Piece := ⟨p.color, p.type.unpromote⟩

theorem isNone_iff {p : Piece} : p.isNone = true ↔ p = none := by
  obtain ⟨c, pt⟩ := p
  cases c <;> cases pt <;> decide

theorem isNone_eq_false_iff {p : Piece} : p.isNone = false ↔ p ≠ none := by
  rw [Ne, ← isNone_iff, Bool.not_eq_true]

end Piece

end Shogi
