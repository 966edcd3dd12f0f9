import ShogiEngine.Shogi.Conservation
import ShogiEngine.Shogi.PackedSfen

/-!
# Writing a packed SFEN

`ToPackedSfen` of `shogi/packed_sfen.cc`: the bit writer, the codes of the men that are missing
from the board and the hands, and the encoder. Every function of the writer appends a fixed word.

## Main definitions

- `BitWriter`, `BitWriter.write`: the bit writer, which fails past bit 256
- `writeBoardPiece`, `writeHandPiece`, `writePieceBoxPiece`, `toPackedSfen`

## Main results

- `append_append`, `write_eq`: the writer appends words
- `writeBoardPiece_eq`, `writeHandPiece_eq`, `writePieceBoxPiece_eq`: the word of each man
-/

namespace Shogi

namespace PackedSfen

/-! ## The bit writer -/

/-- `data[i >> 3] |= 1 << (i & 7)`. -/
def setBit (p : PackedSfen) (i : Nat) : PackedSfen where
  data k := if k.val = i / 8 then p.data k ||| (1#8 <<< (i % 8)) else p.data k

/-- `BitWriter`. -/
structure BitWriter where
  packed : PackedSfen
  cursor : Nat

/-- A writer on 32 zero bytes. -/
def BitWriter.new : BitWriter := ⟨⟨fun _ => 0#8⟩, 0⟩

/-- One pass of the loop of `Write`. -/
def BitWriter.put (w : BitWriter) (x : Bool) : BitWriter :=
  ⟨if x then w.packed.setBit w.cursor else w.packed, w.cursor + 1⟩

/-- `BitWriter::Write`. -/
def BitWriter.write (w : BitWriter) (value bits : Nat) : Option BitWriter :=
  if w.cursor + bits > 256 then none
  else some ((List.range bits).foldl (fun w i => w.put (value.testBit i)) w)

/-! ## The men -/

/-- `kPieceBoxCodes`, by raw piece type. -/
def kPieceBoxCodes : PieceType → HuffmanCode
  | .none => ⟨0x00, 1⟩
  | .pawn => ⟨0x02, 2⟩
  | .lance => ⟨0x09, 4⟩
  | .knight => ⟨0x0d, 4⟩
  | .silver => ⟨0x0b, 4⟩
  | .bishop => ⟨0x2f, 6⟩
  | .rook => ⟨0x3f, 6⟩
  | _ => ⟨0x1b, 5⟩

/-- `kHandOrder`. -/
def kHandOrder : List PieceType := [.pawn, .lance, .knight, .silver, .gold, .bishop, .rook]

/-- `color == WHITE ? 1 : 0`. -/
def colorBit : Color → Nat
  | .black => 0
  | .white => 1

/-- The raw type of a man on the board. -/
def rawType (pt : PieceType) : PieceType := if pt.isPromoted then pt.unpromote else pt

/-- `WriteBoardPiece`. -/
def writeBoardPiece (w : BitWriter) (piece : Piece) : Option BitWriter :=
  if piece.isNone then w.write (kBoardCodes .none).code (kBoardCodes .none).bits
  else
    let promoted := piece.type.isPromoted
    let raw := rawType piece.type
    if !raw.isHandPiece then none
    else do
      let w ← w.write (kBoardCodes raw).code (kBoardCodes raw).bits
      let w ← if raw ≠ .gold then w.write (if promoted then 1 else 0) 1 else pure w
      w.write (colorBit piece.color) 1

/-- `WriteHandPiece`. -/
def writeHandPiece (color : Color) (raw : PieceType) (w : BitWriter) : Option BitWriter :=
  if !raw.isHandPiece then none
  else do
    let w ← w.write ((kBoardCodes raw).code >>> 1) ((kBoardCodes raw).bits - 1)
    let w ← if raw ≠ .gold then w.write 0 1 else pure w
    w.write (colorBit color) 1

/-- `WritePieceBoxPiece`. -/
def writePieceBoxPiece (raw : PieceType) (w : BitWriter) : Option BitWriter :=
  if !raw.isHandPiece then none
  else do
    let w ← w.write (kPieceBoxCodes raw).code (kPieceBoxCodes raw).bits
    if raw = .gold then pure w else w.write 0 1

/-- A loop that writes `n` men. -/
def repeatWrite (f : BitWriter → Option BitWriter) : Nat → BitWriter → Option BitWriter
  | 0, w => some w
  | n + 1, w => do
    let w ← f w
    repeatWrite f n w

end PackedSfen

namespace ShogiBoard

open PackedSfen

/-! ## The encoder -/

/-- The men that are left of the physical set, by raw type. -/
abbrev Remaining := PieceType → Int

/-- One pass of the board loop of `ToPackedSfen`. -/
def writeSquare (b : ShogiBoard) (st : BitWriter × Remaining) (s : Square) :
    Option (BitWriter × Remaining) :=
  let piece := b.board s
  if !piece.isNone && piece.type = .king then some st
  else do
    let w ← writeBoardPiece st.1 piece
    if !piece.isNone then
      let raw := rawType piece.type
      let remaining := Function.update st.2 raw (st.2 raw - 1)
      if !raw.isHandPiece || remaining raw < 0 then none
      else pure (w, remaining)
    else pure (w, st.2)

/-- The men of one type in one hand. -/
def writeHand (b : ShogiBoard) (st : BitWriter × Remaining) (hand : Color × PieceType) :
    Option (BitWriter × Remaining) :=
  let count := (b.hand hand.1).count hand.2
  let remaining := Function.update st.2 hand.2 (st.2 hand.2 - count)
  if remaining hand.2 < 0 then none
  else do
    let w ← repeatWrite (writeHandPiece hand.1 hand.2) count st.1
    pure (w, remaining)

/-- The missing men of one type. -/
def writeMissing (remaining : Remaining) (w : BitWriter) (raw : PieceType) : Option BitWriter :=
  repeatWrite (writePieceBoxPiece raw) (remaining raw).toNat w

/-- The hands in the order in which they are written. -/
def handsInOrder : List (Color × PieceType) :=
  [Color.black, .white].flatMap fun color => kHandOrder.map fun raw => (color, raw)

/-- A king square as a number, 81 for a king that is not on the board. -/
def kingIdx (b : ShogiBoard) (c : Color) : Nat := ((b.kingSq c).map Fin.val).getD 81

/-- `ToPackedSfen`, `none` where it returns `false`; the writer is where it stands at the end. -/
def toPackedSfen (b : ShogiBoard) : Option BitWriter := do
  let w ← BitWriter.new.write (colorBit b.sideToMove) 1
  let w ← w.write (b.kingIdx .black) 7
  let w ← w.write (b.kingIdx .white) 7
  let st ← (List.finRange 81).foldlM b.writeSquare (w, fun raw => kPhysicalPieceCounts raw)
  let st ← handsInOrder.foldlM b.writeHand st
  let w ← kHandOrder.foldlM (writeMissing st.2) st.1
  if w.cursor = 256 then some w else none

end ShogiBoard

namespace PackedSfen

open BitTape (bitsOf ofBits length_bitsOf)

/-! ## Words -/

/-- Append a word. -/
def BitWriter.append (w : BitWriter) (l : List Bool) : Option BitWriter :=
  if w.cursor + l.length > 256 then none else some (l.foldl BitWriter.put w)

/-- The word of a Huffman code. -/
def HuffmanCode.word (c : HuffmanCode) : List Bool := bitsOf c.code c.bits

/-- `color == WHITE`, as a bit. -/
def colorFlag (c : Color) : Bool := c == .white

/-- The promotion bit, which a gold does not have. -/
def promotedBit (raw : PieceType) (promoted : Bool) : List Bool :=
  if raw = .gold then [] else [promoted]

/-- The word of what stands on a square. -/
def boardWord (piece : Piece) : List Bool :=
  if piece.isNone then (kBoardCodes .none).word
  else (kBoardCodes (rawType piece.type)).word ++
    (promotedBit (rawType piece.type) piece.type.isPromoted ++ [colorFlag piece.color])

/-- The code of a man in hand: that of a man on the board without its first bit. -/
def handCode (raw : PieceType) : HuffmanCode :=
  ⟨(kBoardCodes raw).code >>> 1, (kBoardCodes raw).bits - 1⟩

/-- The word of a man in hand. -/
def handWord (piece : HandPiece) : List Bool :=
  (handCode piece.raw).word ++
    (promotedBit piece.raw piece.pieceBox ++ [colorFlag piece.color])

/-- What a missing man is read as: a gold passes for a promoted white silver. -/
def boxPiece (raw : PieceType) : HandPiece :=
  if raw = .gold then ⟨.silver, .white, true⟩ else ⟨raw, .black, true⟩

section Append

variable {w w' : BitWriter} {l l' : List Bool} {v n : Nat}

theorem cursor_foldl_put : (l.foldl BitWriter.put w).cursor = w.cursor + l.length := by
  induction l generalizing w with
  | nil => rfl
  | cons x l ih =>
    rw [List.foldl_cons, ih, List.length_cons]
    change w.cursor + 1 + _ = _
    omega

theorem append_eq_some : w.append l = some w' ↔
    w.cursor + l.length ≤ 256 ∧ w' = l.foldl BitWriter.put w := by
  rw [BitWriter.append]
  split
  · rename_i h
    exact iff_of_false (by simp) fun hw => by omega
  · rename_i h
    rw [Option.some_inj, eq_comm (b := w')]
    exact (and_iff_right (by omega)).symm

/-- Two words in sequence are one. -/
theorem append_append : (w.append l).bind (fun w => w.append l') = w.append (l ++ l') := by
  apply Option.ext
  intro w'
  rw [Option.bind_eq_some_iff, append_eq_some, List.foldl_append, List.length_append]
  simp only [append_eq_some]
  constructor
  · rintro ⟨_, ⟨-, rfl⟩, hlen, rfl⟩
    rw [cursor_foldl_put] at hlen
    exact ⟨by omega, rfl⟩
  · rintro ⟨hlen, rfl⟩
    refine ⟨_, ⟨by omega, rfl⟩, ?_, rfl⟩
    rw [cursor_foldl_put]
    omega

theorem append_nil (h : w.cursor ≤ 256) : w.append [] = some w :=
  append_eq_some.mpr ⟨h, rfl⟩

theorem write_eq : w.write v n = w.append (bitsOf v n) := by
  rw [BitWriter.write, BitWriter.append, length_bitsOf, bitsOf, List.foldl_map]

end Append

/-! ## The word of each man -/

section Words

variable {w : BitWriter} {raw : PieceType} {color : Color}

theorem bitsOf_colorBit : bitsOf (colorBit color) 1 = [colorFlag color] := by
  cases color <;> rfl

theorem bitsOf_flag (x : Bool) : bitsOf (if x then 1 else 0) 1 = [x] := by
  cases x <;> rfl

/-- A word, then the promotion bit, then the colour. -/
theorem append_man {x : Bool} {v n m : Nat} (hm : bitsOf m 1 = [x]) :
    ((w.write v n).bind fun w =>
      if raw ≠ .gold then (w.write m 1).bind fun w => w.write (colorBit color) 1
      else w.write (colorBit color) 1) =
      w.append (bitsOf v n ++ (promotedBit raw x ++ [colorFlag color])) := by
  have hcolor : ∀ w : BitWriter, w.write (colorBit color) 1 = w.append [colorFlag color] :=
    fun w => by rw [write_eq, bitsOf_colorBit]
  simp only [hcolor]
  rw [write_eq, promotedBit]
  by_cases h : raw = .gold
  · simp only [h, ne_eq, not_true_eq_false, if_false, if_true, List.nil_append]
    exact append_append
  · simp only [h, ne_eq, not_false_eq_true, if_false, if_true, write_eq, hm, append_append]

theorem writeBoardPiece_eq {piece : Piece}
    (h : piece.isNone = false → (rawType piece.type).isHandPiece = true) :
    writeBoardPiece w piece = w.append (boardWord piece) := by
  rw [writeBoardPiece, boardWord]
  cases hn : piece.isNone with
  | true => exact write_eq
  | false =>
    simp only [Bool.false_eq_true, if_false, h hn, Bool.not_true]
    exact append_man (bitsOf_flag _)

theorem writeHandPiece_eq (h : raw.isHandPiece = true) :
    writeHandPiece color raw w = w.append (handWord ⟨raw, color, false⟩) := by
  rw [writeHandPiece, handWord]
  simp only [h, Bool.not_true, Bool.false_eq_true, if_false]
  exact append_man rfl

/-- A missing man takes a word of the hand section. -/
theorem writePieceBoxPiece_eq (h : raw.isHandPiece = true) :
    writePieceBoxPiece raw w = w.append (handWord (boxPiece raw)) := by
  have hword : ∀ raw : PieceType, raw.isHandPiece = true → handWord (boxPiece raw) =
      (kPieceBoxCodes raw).word ++ if raw = .gold then [] else [false] := by decide
  rw [writePieceBoxPiece, hword raw h]
  simp only [h, Bool.not_true, Bool.false_eq_true, if_false, write_eq]
  by_cases hg : raw = .gold
  · simp only [hg, if_true]
    rw [List.append_nil]
    exact bind_pure _
  · simp only [hg, if_false]
    exact append_append

theorem repeatWrite_eq {f : BitWriter → Option BitWriter} {l : List Bool}
    (hf : ∀ w, f w = w.append l) {n : Nat} (hw : w.cursor ≤ 256) :
    repeatWrite f n w = w.append (List.replicate n l).flatten := by
  induction n generalizing w with
  | zero => exact (append_nil hw).symm
  | succ n ih =>
    rw [List.replicate_succ, List.flatten_cons, ← append_append, repeatWrite, hf]
    refine Option.bind_congr fun w' hw' => ih ?_
    obtain ⟨hlen, rfl⟩ := append_eq_some.mp hw'
    rw [cursor_foldl_put]
    exact hlen

end Words

end PackedSfen

namespace ShogiBoard

open PackedSfen

/-! ## What the encoder writes -/

/-- Take `n` men of each type out of the rest. -/
def spend (r : Remaining) (n : PieceType → Nat) : Remaining := fun pt =>
  if pt.isHandPiece then r pt - n pt else r pt

/-- A part of the encoder: it writes a word and takes men out of the rest, which suffices. -/
def Writes (f : BitWriter × Remaining → Option (BitWriter × Remaining)) (l : List Bool)
    (n : PieceType → Nat) : Prop :=
  ∀ w r st, w.cursor ≤ 256 → (∀ pt, pt.isHandPiece = true → 0 ≤ r pt) →
    (f (w, r) = some st ↔ w.append l = some st.1 ∧ st.2 = spend r n ∧
      ∀ pt, pt.isHandPiece = true → (n pt : Int) ≤ r pt)

/-- The word of a square, of which a king's has none. -/
def squareWord (b : ShogiBoard) (s : Square) : List Bool :=
  if (b.board s).type = .king then [] else boardWord (b.board s)

/-- The words of the men of one type in one hand. -/
def handWords (b : ShogiBoard) (hand : Color × PieceType) : List Bool :=
  (List.replicate ((b.hand hand.1).count hand.2) (handWord ⟨hand.2, hand.1, false⟩)).flatten

/-- The words of `n raw` missing men of each type. -/
def missingWords (n : PieceType → Nat) : List Bool :=
  kHandOrder.flatMap fun raw => (List.replicate (n raw) (handWord (boxPiece raw))).flatten

section Encoder

variable {b : ShogiBoard} {w : BitWriter} {r : Remaining} {l l' : List Bool}
  {n n' : PieceType → Nat} {f g : BitWriter × Remaining → Option (BitWriter × Remaining)}

theorem spend_spend : spend (spend r n) n' = spend r (fun pt => n pt + n' pt) := by
  funext pt
  simp only [spend]
  split
  · push_cast
    omega
  · rfl

theorem spend_zero : spend r (fun _ => 0) = r := by
  funext pt
  simp [spend]

/-- Taking out men of one type. -/
theorem update_eq_spend {raw : PieceType} (hraw : raw.isHandPiece = true) {k : Nat} :
    Function.update r raw (r raw - k) = spend r (fun pt => if raw = pt then k else 0) := by
  funext pt
  rw [Function.update_apply, spend]
  by_cases h : pt = raw
  · subst h
    simp [hraw]
  · simp [h, Ne.symm h]

theorem writes_nil : Writes some [] (fun _ => 0) := by
  intro w r st hw hr
  rw [append_nil hw, spend_zero, Option.some_inj, Option.some_inj, Prod.ext_iff]
  constructor
  · rintro ⟨h1, h2⟩
    exact ⟨h1, h2.symm, fun pt hpt => hr pt hpt⟩
  · rintro ⟨h1, h2, -⟩
    exact ⟨h1, h2.symm⟩

/-- Two parts in sequence. -/
theorem Writes.bind (hf : Writes f l n) (hg : Writes g l' n') :
    Writes (fun st => (f st).bind g) (l ++ l') (fun pt => n pt + n' pt) := by
  intro w r st hw hr
  rw [← append_append, Option.bind_eq_some_iff, Option.bind_eq_some_iff]
  have hrest : ∀ pt, pt.isHandPiece = true → spend r n pt = r pt - n pt :=
    fun pt hpt => if_pos hpt
  constructor
  · rintro ⟨⟨w', r'⟩, h, h'⟩
    obtain ⟨happ, rfl, hle⟩ := (hf w r _ hw hr).mp h
    have hw' : w'.cursor ≤ 256 := by
      obtain ⟨hlen, rfl⟩ := append_eq_some.mp happ
      rw [cursor_foldl_put]
      exact hlen
    have hr' : ∀ pt, pt.isHandPiece = true → 0 ≤ spend r n pt := by
      intro pt hpt
      have := hle pt hpt
      rw [hrest pt hpt]
      omega
    obtain ⟨happ', hst, hle'⟩ := (hg w' _ st hw' hr').mp h'
    refine ⟨⟨w', happ, happ'⟩, hst.trans spend_spend, fun pt hpt => ?_⟩
    have h1 := hle' pt hpt
    rw [hrest pt hpt] at h1
    push_cast
    omega
  · rintro ⟨⟨w', happ, happ'⟩, hst, hle⟩
    have hw' : w'.cursor ≤ 256 := by
      obtain ⟨hlen, rfl⟩ := append_eq_some.mp happ
      rw [cursor_foldl_put]
      exact hlen
    have hle1 : ∀ pt, pt.isHandPiece = true → (n pt : Int) ≤ r pt := by
      intro pt hpt
      have := hle pt hpt
      push_cast at this
      omega
    have hr' : ∀ pt, pt.isHandPiece = true → 0 ≤ spend r n pt := by
      intro pt hpt
      have := hle1 pt hpt
      rw [hrest pt hpt]
      omega
    refine ⟨(w', spend r n), (hf w r _ hw hr).mpr ⟨happ, rfl, hle1⟩, ?_⟩
    refine (hg w' _ st hw' hr').mpr ⟨happ', hst.trans spend_spend.symm, fun pt hpt => ?_⟩
    have h1 := hle pt hpt
    rw [hrest pt hpt]
    push_cast at h1
    omega

/-- A loop of parts. -/
theorem writes_foldlM {α : Type} {step : BitWriter × Remaining → α →
    Option (BitWriter × Remaining)} {word : α → List Bool} {men : α → PieceType → Nat}
    {as : List α} (hstep : ∀ a ∈ as, Writes (fun st => step st a) (word a) (men a)) :
    Writes (fun st => as.foldlM step st) (as.flatMap word)
      (fun pt => (as.map fun a => men a pt).sum) := by
  induction as with
  | nil => exact writes_nil
  | cons a as ih =>
    have hrest := ih fun a' ha' => hstep a' (List.mem_cons_of_mem _ ha')
    have h := (hstep a List.mem_cons_self).bind hrest
    simp only [List.foldlM_cons, List.flatMap_cons, List.map_cons, List.sum_cons]
    exact h

theorem Writes.congr (hf : Writes f l n) (hn : ∀ pt, pt.isHandPiece = true → n pt = n' pt) :
    Writes f l n' := by
  intro w r st hw hr
  have hspend : spend r n' = spend r n := by
    funext pt
    rw [spend, spend]
    split
    · rename_i hpt
      rw [hn pt hpt]
    · rfl
  rw [hf w r st hw hr, hspend]
  refine and_congr_right fun _ => and_congr_right fun _ => forall_congr' fun pt => ?_
  exact imp_congr_right fun hpt => by rw [hn pt hpt]

/-- Enough men of one type are left. -/
theorem le_rest_iff (hr : ∀ pt, pt.isHandPiece = true → 0 ≤ r pt) {raw : PieceType}
    (hraw : raw.isHandPiece = true) {k : Nat} :
    (∀ pt, pt.isHandPiece = true → ((if raw = pt then k else 0 : Nat) : Int) ≤ r pt) ↔
      ¬ spend r (fun pt => if raw = pt then k else 0) raw < 0 := by
  have hself : spend r (fun pt => if raw = pt then k else 0) raw = r raw - k := by
    simp [spend, hraw]
  rw [hself]
  constructor
  · intro h
    have := h raw hraw
    rw [if_pos rfl] at this
    omega
  · intro h pt hpt
    split
    · rename_i e
      subst e
      omega
    · exact hr pt hpt

theorem writes_writeHand {hand : Color × PieceType} (hraw : hand.2.isHandPiece = true) :
    Writes (fun st => b.writeHand st hand) (b.handWords hand)
      (fun pt => if hand.2 = pt then (b.hand hand.1).count hand.2 else 0) := by
  intro w r st hw hr
  dsimp only [writeHand]
  rw [le_rest_iff hr hraw, update_eq_spend hraw]
  split
  · rename_i h
    exact iff_of_false (by simp) fun h' => h'.2.2 h
  · rename_i h
    rw [and_iff_left h, repeatWrite_eq (fun w => writeHandPiece_eq hraw) hw, handWords]
    refine Option.bind_eq_some_iff.trans ?_
    constructor
    · rintro ⟨w', hw', hst⟩
      cases hst
      exact ⟨hw', rfl⟩
    · rintro ⟨hw', hst⟩
      exact ⟨st.1, hw', congrArg some (Prod.ext rfl hst.symm)⟩

/-- The raw type of a man other than a king. -/
theorem rawType_eq_base {pt : PieceType} (hv : pt.isValid = true) (hk : pt ≠ .king) :
    rawType pt = pt.base ∧ pt.base.isHandPiece = true := by
  revert hv hk
  cases pt <;> decide

theorem writes_empty {s : Square} (hn : b.board s = .none) :
    Writes (fun st => b.writeSquare st s) (b.squareWord s) (fun _ => 0) := by
  intro w r st hw hr
  have hnone := Piece.isNone_iff.mpr hn
  have hk : (b.board s).type ≠ .king := by
    rw [hn]
    decide
  dsimp only [writeSquare]
  rw [squareWord, if_neg (by simp [hnone]), if_neg hk, writeBoardPiece_eq (by simp [hnone]),
    spend_zero]
  simp only [hnone, Bool.not_true, Bool.false_eq_true, if_false]
  refine Option.bind_eq_some_iff.trans ?_
  constructor
  · rintro ⟨w', hw', hst⟩
    cases hst
    exact ⟨hw', rfl, hr⟩
  · rintro ⟨hw', hst, -⟩
    exact ⟨st.1, hw', congrArg some (Prod.ext rfl hst.symm)⟩

/-- A king is passed over. -/
theorem writes_king {s : Square} (hn : b.board s ≠ .none) (hk : (b.board s).type = .king) :
    Writes (fun st => b.writeSquare st s) (b.squareWord s) (fun _ => 0) := by
  have hnone : (b.board s).isNone = false := by
    rw [← Bool.not_eq_true]
    exact mt Piece.isNone_iff.mp hn
  have hpass : (fun st => b.writeSquare st s) = some := by
    funext st
    dsimp only [writeSquare]
    rw [if_pos (by simp [hnone, hk])]
  rw [hpass, squareWord, if_pos hk]
  exact writes_nil

theorem writes_man (ha : b.Agree) {s : Square} (hn : b.board s ≠ .none)
    (hk : (b.board s).type ≠ .king) :
    Writes (fun st => b.writeSquare st s) (b.squareWord s)
      (fun pt => if rawType (b.board s).type = pt then 1 else 0) := by
  intro w r st hw hr
  have hnone : (b.board s).isNone = false := by
    rw [← Bool.not_eq_true]
    exact mt Piece.isNone_iff.mp hn
  obtain ⟨hraw, hhand⟩ := rawType_eq_base (ha.valid s hn) hk
  rw [← hraw] at hhand
  have hone := @update_eq_spend r (rawType (b.board s).type) hhand 1
  rw [Nat.cast_one] at hone
  dsimp only [writeSquare]
  rw [le_rest_iff hr hhand, squareWord, if_neg (by simp [hk]), if_neg hk,
    writeBoardPiece_eq fun _ => hhand]
  simp only [hnone, Bool.not_false, if_true, hhand, Bool.not_true, Bool.false_or, hone,
    decide_eq_true_eq]
  refine Option.bind_eq_some_iff.trans ?_
  constructor
  · rintro ⟨w', hw', hst⟩
    split at hst
    · cases hst
    · rename_i h
      cases hst
      exact ⟨hw', rfl, h⟩
  · rintro ⟨hw', hst, h⟩
    refine ⟨st.1, hw', ?_⟩
    rw [if_neg h]
    exact congrArg some (Prod.ext rfl hst.symm)

theorem writes_writeSquare (ha : b.Agree) {s : Square} :
    Writes (fun st => b.writeSquare st s) (b.squareWord s)
      (fun pt => Position.worth pt (b.position.man s)) := by
  rw [man_eq]
  by_cases hn : b.board s = .none
  · rw [if_pos hn]
    exact writes_empty hn
  · rw [if_neg hn]
    by_cases hk : (b.board s).type = .king
    · refine (writes_king hn hk).congr fun pt hpt => ?_
      rw [Position.worth, hk, PieceType.base, if_pos rfl, if_neg]
      intro e
      rw [← e] at hpt
      cases hpt
    · refine (writes_man ha hn hk).congr fun pt _ => ?_
      rw [(rawType_eq_base (ha.valid s hn) hk).1, Position.worth]

/-- The words of the men on the board and in the hands. -/
def menWords (b : ShogiBoard) : List Bool :=
  (List.finRange 81).flatMap b.squareWord ++ handsInOrder.flatMap b.handWords

/-- The side to move and the king squares. -/
def headerWord (b : ShogiBoard) : List Bool :=
  BitTape.bitsOf (colorBit b.sideToMove) 1 ++ (BitTape.bitsOf (b.kingIdx .black) 7 ++
    BitTape.bitsOf (b.kingIdx .white) 7)

/-- The men of the physical set that are neither on the board nor in a hand. -/
def missing (b : ShogiBoard) (pt : PieceType) : Nat := kPhysicalPieceCounts pt - b.total pt

/-- What the encoder writes. -/
def packedWord (b : ShogiBoard) : List Bool :=
  b.headerWord ++ (b.menWords ++ missingWords b.missing)

theorem isHandPiece_of_mem_handsInOrder :
    ∀ hand ∈ handsInOrder, hand.2.isHandPiece = true := by decide

/-- The sums of the board and the hands are the totals. -/
theorem total_eq_sum {pt : PieceType} (hpt : pt.isHandPiece = true) :
    ((List.finRange 81).map fun s => Position.worth pt (b.position.man s)).sum +
      (handsInOrder.map fun hand =>
        if hand.2 = pt then (b.hand hand.1).count hand.2 else 0).sum = b.total pt := by
  have hboard : b.position.onBoard pt =
      ((List.finRange 81).map fun s => Position.worth pt (b.position.man s)).sum :=
    Fin.sum_univ_def _
  have hhand : (handsInOrder.map fun hand =>
      if hand.2 = pt then (b.hand hand.1).count hand.2 else 0).sum =
      (b.hand .black).count pt + (b.hand .white).count pt := by
    cases pt <;> first | exact absurd hpt (by decide) | simp [handsInOrder, kHandOrder]
  rw [hhand, ← hboard, ← Nat.add_assoc]
  rfl

/-- The board loop and the hand loop together. -/
def writeMen (b : ShogiBoard) (st : BitWriter × Remaining) : Option (BitWriter × Remaining) :=
  ((List.finRange 81).foldlM b.writeSquare st).bind fun st => handsInOrder.foldlM b.writeHand st

theorem writes_men (ha : b.Agree) : Writes b.writeMen b.menWords b.total := by
  have hsquares := @writes_foldlM Square b.writeSquare b.squareWord
    (fun s pt => Position.worth pt (b.position.man s)) (List.finRange 81)
    fun s _ => writes_writeSquare ha
  have hhands := @writes_foldlM _ b.writeHand b.handWords
    (fun hand pt => if hand.2 = pt then (b.hand hand.1).count hand.2 else 0) handsInOrder
    fun hand h => writes_writeHand (isHandPiece_of_mem_handsInOrder hand h)
  exact (hsquares.bind hhands).congr fun pt hpt => total_eq_sum hpt

theorem writeMissing_eq {remaining : Remaining} (hw : w.cursor ≤ 256) :
    kHandOrder.foldlM (writeMissing remaining) w =
      w.append (missingWords fun pt => (remaining pt).toNat) := by
  have hloop : ∀ (l : List PieceType) (w : BitWriter), w.cursor ≤ 256 →
      (∀ raw ∈ l, raw.isHandPiece = true) → l.foldlM (writeMissing remaining) w =
        w.append (l.flatMap fun raw =>
          (List.replicate (remaining raw).toNat (handWord (boxPiece raw))).flatten) := by
    intro l
    induction l with
    | nil => exact fun w hw _ => (append_nil hw).symm
    | cons raw l ih =>
      intro w hw hl
      rw [List.foldlM_cons, List.flatMap_cons, ← append_append, writeMissing,
        repeatWrite_eq (fun w => writePieceBoxPiece_eq (hl raw List.mem_cons_self)) hw]
      refine Option.bind_congr fun w' hw' => ih w' ?_ fun x hx => hl x (List.mem_cons_of_mem _ hx)
      obtain ⟨hlen, rfl⟩ := append_eq_some.mp hw'
      rw [cursor_foldl_put]
      exact hlen
  exact hloop kHandOrder w hw (by decide)

/-- The encoder in terms of its parts. -/
theorem toPackedSfen_eq : b.toPackedSfen =
    (BitWriter.new.append b.headerWord).bind fun w =>
      (b.writeMen (w, fun raw => (kPhysicalPieceCounts raw : Int))).bind fun st =>
      (kHandOrder.foldlM (writeMissing st.2) st.1).bind fun w =>
      if w.cursor = 256 then some w else none := by
  rw [headerWord, ← append_append, Option.bind_assoc]
  simp only [← append_append, Option.bind_assoc, ← write_eq, writeMen]
  rfl

theorem cursor_le_of_append {w' : BitWriter} {l : List Bool} (h : w.append l = some w') :
    w'.cursor ≤ 256 := by
  obtain ⟨hlen, rfl⟩ := append_eq_some.mp h
  rw [cursor_foldl_put]
  exact hlen

/-- What the encoder finds left over is missing. -/
theorem missingWords_spend : missingWords (fun pt =>
    (spend (fun raw => (kPhysicalPieceCounts raw : Int)) b.total pt).toNat) =
    missingWords b.missing := by
  have hhand : ∀ raw ∈ kHandOrder, raw.isHandPiece = true := by decide
  refine List.flatMap_congr fun raw hraw => ?_
  simp only [spend, hhand raw hraw, if_true, missing]
  congr 2
  omega

/-- The encoder succeeds where the men are within the physical set and its word has 256 bits. -/
theorem toPackedSfen_eq_some (ha : b.Agree) : b.toPackedSfen = some w ↔
    (∀ pt, pt.isHandPiece = true → b.total pt ≤ kPhysicalPieceCounts pt) ∧
      BitWriter.new.append b.packedWord = some w ∧ w.cursor = 256 := by
  have hphys : ∀ pt : PieceType, pt.isHandPiece = true → (0 : Int) ≤ kPhysicalPieceCounts pt :=
    fun _ _ => Int.natCast_nonneg _
  rw [toPackedSfen_eq, packedWord, ← append_append, Option.bind_eq_some_iff,
    Option.bind_eq_some_iff]
  simp only [← append_append, Option.bind_eq_some_iff]
  constructor
  · rintro ⟨w₁, h₁, st, hst, w₂, h₂, hend⟩
    have hw₁ := cursor_le_of_append h₁
    obtain ⟨hmen, hrest, hle⟩ := (writes_men ha _ _ _ hw₁ hphys).mp hst
    rw [writeMissing_eq (cursor_le_of_append hmen), hrest, missingWords_spend] at h₂
    split at hend
    · rename_i h256
      cases hend
      exact ⟨fun pt hpt => by exact_mod_cast hle pt hpt, ⟨w₁, h₁, st.1, hmen, h₂⟩, h256⟩
    · cases hend
  · rintro ⟨hle, ⟨w₁, h₁, w₂, hmen, h₂⟩, h256⟩
    have hw₁ := cursor_le_of_append h₁
    refine ⟨w₁, h₁, (w₂, spend (fun raw => (kPhysicalPieceCounts raw : Int)) b.total),
      (writes_men ha _ _ _ hw₁ hphys).mpr ⟨hmen, rfl, ?_⟩, w, ?_, ?_⟩
    · exact fun pt hpt => by exact_mod_cast hle pt hpt
    · rw [writeMissing_eq (cursor_le_of_append hmen), missingWords_spend]
      exact h₂
    · rw [if_pos h256]

/-! ## The number of bits -/

/-- The length of the word of a man in hand. -/
def handLength (raw : PieceType) : Nat := (handCode raw).bits + (if raw = .gold then 0 else 1) + 1

/-- The bits that `n pt` men of each type take in the hands. -/
def weigh (n : PieceType → Nat) : Nat := (kHandOrder.map fun pt => handLength pt * n pt).sum

/-- The squares without kings. -/
def nonKings (b : ShogiBoard) : Nat := ∑ s, if (b.board s).type = .king then 0 else 1

theorem length_promotedBit {raw : PieceType} {x : Bool} :
    (promotedBit raw x).length = if raw = .gold then 0 else 1 := by
  rw [promotedBit]
  split <;> rfl

theorem length_handWord {piece : HandPiece} : (handWord piece).length = handLength piece.raw := by
  rw [handWord, handLength, List.length_append, List.length_append, length_promotedBit,
    HuffmanCode.word, BitTape.length_bitsOf, List.length_singleton, Nat.add_assoc]

theorem handLength_boxPiece {raw : PieceType} (h : raw.isHandPiece = true) :
    handLength (boxPiece raw).raw = handLength raw := by
  revert h
  cases raw <;> decide

theorem weigh_add : weigh (fun pt => n pt + n' pt) = weigh n + weigh n' := by
  simp only [weigh, Nat.mul_add]
  exact List.sum_map_add

theorem weigh_zero : weigh (fun _ => 0) = 0 := rfl

theorem weigh_single {raw : PieceType} (h : raw.isHandPiece = true) {k : Nat} :
    weigh (fun pt => if raw = pt then k else 0) = handLength raw * k := by
  cases raw <;> first | exact absurd h (by decide) | simp [weigh, kHandOrder]

theorem weigh_congr (h : ∀ pt, pt.isHandPiece = true → n pt = n' pt) : weigh n = weigh n' := by
  have hhand : ∀ raw ∈ kHandOrder, raw.isHandPiece = true := by decide
  rw [weigh, weigh]
  congr 1
  exact List.map_congr_left fun pt hpt => by rw [h pt (hhand pt hpt)]

/-- The whole set takes 162 bits in the hands. -/
theorem weigh_kPhysicalPieceCounts : weigh kPhysicalPieceCounts = 162 := by decide

/-- The words of a list of parts, each with a fixed length and its men. -/
theorem length_flatMap {α : Type} {as : List α} {word : α → List Bool} {k : α → Nat}
    {men : α → PieceType → Nat} (h : ∀ a ∈ as, (word a).length = k a + weigh (men a)) :
    (as.flatMap word).length = (as.map k).sum + weigh (fun pt => (as.map fun a => men a pt).sum) := by
  induction as with
  | nil => rfl
  | cons a as ih =>
    simp only [List.flatMap_cons, List.length_append, List.map_cons, List.sum_cons]
    rw [h a List.mem_cons_self, ih fun x hx => h x (List.mem_cons_of_mem _ hx), weigh_add]
    omega

theorem length_squareWord (ha : b.Agree) {s : Square} : (b.squareWord s).length =
    (if (b.board s).type = .king then 0 else 1) +
      weigh (fun pt => Position.worth pt (b.position.man s)) := by
  rw [squareWord, man_eq]
  by_cases hn : b.board s = .none
  · rw [hn]
    rfl
  · rw [if_neg hn]
    by_cases hk : (b.board s).type = .king
    · rw [if_pos hk, if_pos hk, @weigh_congr _ (fun _ => 0), weigh_zero]
      · rfl
      · intro pt hpt
        rw [Position.worth, hk, PieceType.base, if_pos rfl, if_neg]
        intro e
        rw [← e] at hpt
        cases hpt
    · obtain ⟨hraw, hhand⟩ := rawType_eq_base (ha.valid s hn) hk
      have hnone : (b.board s).isNone = false := by
        rw [← Bool.not_eq_true]
        exact mt Piece.isNone_iff.mp hn
      have hworth : (fun pt => Position.worth pt (some (b.board s))) =
          fun pt => if rawType (b.board s).type = pt then 1 else 0 := by
        funext pt
        rw [hraw]
        rfl
      rw [← hraw] at hhand
      have hcode : ∀ raw : PieceType, raw.isHandPiece = true →
          (kBoardCodes raw).bits = 1 + (handCode raw).bits := by decide
      rw [if_neg hk, if_neg hk, hworth, weigh_single hhand, boardWord, hnone, handLength]
      simp only [Bool.false_eq_true, if_false, List.length_append, length_promotedBit,
        HuffmanCode.word, BitTape.length_bitsOf, List.length_singleton, hcode _ hhand]
      omega

theorem length_handWords {hand : Color × PieceType} (h : hand.2.isHandPiece = true) :
    (b.handWords hand).length = 0 + weigh (fun pt =>
      if hand.2 = pt then (b.hand hand.1).count hand.2 else 0) := by
  rw [handWords, weigh_single h, List.length_flatten, List.map_replicate, length_handWord,
    List.sum_replicate, smul_eq_mul, Nat.zero_add, Nat.mul_comm]

theorem length_missingWords : (missingWords n).length = weigh n := by
  have hhand : ∀ raw ∈ kHandOrder, raw.isHandPiece = true := by decide
  rw [missingWords, List.length_flatMap, weigh]
  congr 1
  refine List.map_congr_left fun raw hraw => ?_
  rw [List.length_flatten, List.map_replicate, length_handWord,
    handLength_boxPiece (hhand raw hraw), List.sum_replicate, smul_eq_mul, Nat.mul_comm]

theorem length_menWords (ha : b.Agree) : b.menWords.length = b.nonKings + weigh b.total := by
  have hkings : b.nonKings = ((List.finRange 81).map fun s =>
      if (b.board s).type = .king then 0 else 1).sum := Fin.sum_univ_def _
  have hsum := weigh_congr fun pt hpt => (@total_eq_sum b pt hpt).symm
  rw [weigh_add] at hsum
  rw [menWords, List.length_append, length_flatMap fun s _ => length_squareWord ha,
    length_flatMap fun hand h => length_handWords (isHandPiece_of_mem_handsInOrder hand h), hsum,
    hkings]
  simp only [List.map_const', List.sum_replicate, smul_zero]
  omega

/-- Header, squares and the whole set: the missing men fill up what the others leave. -/
theorem length_packedWord (ha : b.Agree)
    (hle : ∀ pt, pt.isHandPiece = true → b.total pt ≤ kPhysicalPieceCounts pt) :
    b.packedWord.length = 177 + b.nonKings := by
  have hset : weigh b.total + weigh b.missing = 162 := by
    rw [← weigh_add, ← weigh_kPhysicalPieceCounts]
    refine weigh_congr fun pt hpt => ?_
    have := hle pt hpt
    rw [missing]
    omega
  rw [packedWord, headerWord, List.length_append, List.length_append, List.length_append,
    List.length_append, BitTape.length_bitsOf, BitTape.length_bitsOf, BitTape.length_bitsOf,
    length_menWords ha, length_missingWords]
  omega

/-- One for a king on the board. -/
def kingCount (b : ShogiBoard) (c : Color) : Nat := if (b.kingSq c).isSome then 1 else 0

theorem sum_king (hb : b.Consistent) (c : Color) :
    (∑ s, if b.board s = ⟨c, .king⟩ then 1 else 0) = b.kingCount c := by
  rw [kingCount]
  cases hk : b.kingSq c with
  | none =>
    refine Finset.sum_eq_zero fun s _ => if_neg fun hs => ?_
    rw [hb.king_sq c s hs] at hk
    cases hk
  | some k =>
    have hiff : ∀ s, b.board s = ⟨c, .king⟩ ↔ s = k := by
      intro s
      constructor
      · intro hs
        exact Option.some.inj ((hb.king_sq c s hs).symm.trans hk)
      · rintro rfl
        exact hb.king_board c s hk
    simp only [hiff, Finset.sum_ite_eq', Finset.mem_univ, if_true, Option.isSome_some]

/-- Every square either has a king or is written. -/
theorem nonKings_add_kingCount (hb : b.Consistent) :
    b.nonKings + (b.kingCount .black + b.kingCount .white) = 81 := by
  rw [nonKings, ← sum_king hb, ← sum_king hb, ← Finset.sum_add_distrib,
    ← Finset.sum_add_distrib]
  have hone : ∀ s, (if (b.board s).type = .king then 0 else 1) +
      ((if b.board s = ⟨.black, .king⟩ then 1 else 0) +
        if b.board s = ⟨.white, .king⟩ then 1 else 0) = 1 := by
    intro s
    obtain ⟨c, pt⟩ := b.board s
    revert c pt
    decide
  simp only [hone]
  rfl

/-- The word has 256 bits iff both kings are on the board. -/
theorem length_packedWord_eq_iff (hb : b.Consistent)
    (hle : ∀ pt, pt.isHandPiece = true → b.total pt ≤ kPhysicalPieceCounts pt) :
    256 ≤ b.packedWord.length ∧ (b.packedWord.length = 256 ↔ b.HasKings) := by
  have hlen := length_packedWord hb.toAgree hle
  have hkings := nonKings_add_kingCount hb
  have hcount : ∀ c, b.kingCount c ≤ 1 ∧ (b.kingCount c = 1 ↔ (b.kingSq c).isSome = true) := by
    intro c
    rw [kingCount]
    split <;> simp_all
  have hiff : b.HasKings ↔ b.kingCount .black = 1 ∧ b.kingCount .white = 1 := by
    rw [(hcount _).2, (hcount _).2]
    exact ⟨fun h => ⟨h _, h _⟩, fun h c => by cases c <;> simp [h]⟩
  have h1 := (hcount .black).1
  have h2 := (hcount .white).1
  rw [hiff]
  omega

end Encoder

end ShogiBoard

end Shogi
