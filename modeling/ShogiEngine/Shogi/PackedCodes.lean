import ShogiEngine.Shogi.PackedWriter

/-!
# The decoder read backwards

The readers of `shogi/packed_sfen.cc` return a value exactly where its word stands in the stream,
and so `SetFromPackedSfen` sets up exactly what the stream spells out.

## Main definitions

- `Listing`: what a stream lists, square by square and then the hands
- `Spells`: the stream is the word of a listing

## Main results

- `exact_readBoardPiece`, `exact_readHandPiece`: the readers invert the codes
- `setFromPackedSfen_eq_some`: the decoder sets up the listing that the stream spells
-/

namespace Shogi

namespace PackedSfen

open BitTape

/-! ## Bits of the stream -/

section Bits

variable {p : PackedSfen} {i j n v : Nat}

theorem read_eq_some : p.read n i = some (v, j) ↔
    v < 2 ^ n ∧ Holds p.bit i (bitsOf v n) ∧ j = i + n ∧ j ≤ 256 := by
  -- the loop collects the next bits
  have hloop : ∀ k, (List.range k).foldl
      (fun value j => value ||| ((p.bit (i + j)).toNat <<< j)) 0 =
      ofBits ((List.range k).map fun j => p.bit (i + j)) := by
    intro k
    induction k with
    | zero => rfl
    | succ k ih =>
      rw [List.range_succ, List.foldl_append, ih, List.map_append, List.map_singleton,
        ofBits_append_singleton, List.length_map, List.length_range]
      rfl
  have hholds : Holds p.bit i ((List.range n).map fun j => p.bit (i + j)) := by
    intro j hj
    rw [List.get_eq_getElem, List.getElem_map, List.getElem_range]
  have hlen : ((List.range n).map fun j => p.bit (i + j)).length = n := by
    rw [List.length_map, List.length_range]
  rw [read, hloop]
  split
  · rename_i h
    refine iff_of_false (by simp) ?_
    rintro ⟨-, -, rfl, hj⟩
    omega
  · rename_i h
    rw [Option.some_inj, Prod.mk.injEq]
    constructor
    · rintro ⟨rfl, rfl⟩
      have hbound := @ofBits_lt ((List.range n).map fun j => p.bit (i + j))
      have hbits := @bitsOf_ofBits ((List.range n).map fun j => p.bit (i + j))
      rw [hlen] at hbound hbits
      refine ⟨hbound, ?_, rfl, by omega⟩
      rw [hbits]
      exact hholds
    · rintro ⟨hv, hbits, rfl, -⟩
      refine ⟨?_, rfl⟩
      rw [hholds.eq_of_length hbits (hlen.trans length_bitsOf.symm), ofBits_bitsOf hv]

theorem read_one : p.read 1 i = if i + 1 > 256 then none else some ((p.bit i).toNat, i + 1) := by
  simp [read]

theorem readBit_eq : p.readBit i = if i + 1 > 256 then none else some (p.bit i, i + 1) := by
  have hbit : ∀ x : Bool, decide (x.toNat ≠ 0) = x := by decide
  change (p.read 1 i).bind (fun y => some (decide (y.1 ≠ 0), y.2)) = _
  rw [read_one]
  split
  · rfl
  · rw [Option.bind_some, hbit]

theorem exact_readBit : Exact p.bit 256 p.readBit (fun x => [x]) (fun _ => True) := by
  intro i x j _
  rw [readBit_eq, holds_cons, List.length_singleton]
  split
  · refine iff_of_false (by simp) ?_
    rintro ⟨-, -, rfl, hj⟩
    omega
  · rw [Option.some_inj, Prod.mk.injEq]
    constructor
    · rintro ⟨rfl, rfl⟩
      exact ⟨trivial, ⟨rfl, holds_nil⟩, rfl, by omega⟩
    · rintro ⟨-, ⟨rfl, -⟩, rfl, -⟩
      exact ⟨rfl, rfl⟩

end Bits

/-! ## Codes -/

section Codes

variable {p : PackedSfen} {table : Nat → Nat → Option PieceType}

/-- The loop that reads a code looks words up in a dictionary. -/
theorem readCode_eq {n : Nat} {l : List Bool} :
    p.readCode table n (l.length + 1) (ofBits l) =
      readUntil p.readBit (fun l => table l.length (ofBits l)) n l := by
  induction n generalizing l with
  | zero => rfl
  | succ n ih =>
    funext i
    change (p.read 1 i).bind _ = (p.readBit i).bind _
    rw [read_one, readBit_eq]
    split
    · rfl
    · have hcode : ofBits (l ++ [p.bit i]) = ofBits l ||| ((p.bit i).toNat <<< l.length) :=
        ofBits_append_singleton
      have hih := @ih (l ++ [p.bit i])
      simp only [Option.bind_some, Nat.add_sub_cancel, List.length_append, List.length_singleton,
        hcode] at hih ⊢
      cases htable : table (l.length + 1) (ofBits l ||| ((p.bit i).toNat <<< l.length)) with
      | some pt => rfl
      | none => exact congrFun hih (i + 1)

/-- A table without two entries for one code. -/
theorem find?_eq_some_iff {α : Type} {l : List α} {q : α → Bool} {a : α}
    (h : ∀ a ∈ l, ∀ b ∈ l, q a = true → q b = true → a = b) :
    l.find? q = some a ↔ a ∈ l ∧ q a = true := by
  constructor
  · exact fun hf => ⟨List.mem_of_find?_eq_some hf, List.find?_some hf⟩
  · rintro ⟨ha, hq⟩
    cases hf : l.find? q with
    | none => exact absurd hq (List.find?_eq_none.mp hf a ha)
    | some b => rw [h b (List.mem_of_find?_eq_some hf) a ha (List.find?_some hf) hq]

theorem code_ext {c d : HuffmanCode} (hbits : c.bits = d.bits) (hcode : c.code = d.code) :
    c = d := by
  cases c
  cases d
  cases hbits
  cases hcode
  rfl

/-- What a board code may stand for. -/
def BoardRaw (raw : PieceType) : Prop := raw ∈ PieceType.none :: PieceType.handTypes

instance : DecidablePred BoardRaw := fun _ => inferInstanceAs (Decidable (_ ∈ _))

theorem code_lt : ∀ raw : PieceType, (kBoardCodes raw).code < 2 ^ (kBoardCodes raw).bits ∧
    (handCode raw).code < 2 ^ (handCode raw).bits := by decide

theorem prefixFree_board : PrefixFree (fun l => boardCode? l.length (ofBits l))
    (fun raw => (kBoardCodes raw).word) BoardRaw where
  dict_iff l raw := by
    have hunique : ∀ a ∈ PieceType.none :: PieceType.handTypes,
        ∀ b ∈ PieceType.none :: PieceType.handTypes, kBoardCodes a = kBoardCodes b → a = b := by
      decide
    rw [boardCode?, find?_eq_some_iff]
    · refine and_congr_right fun _ => ?_
      rw [HuffmanCode.word, eq_bitsOf_iff (code_lt raw).1, decide_eq_true_eq,
        eq_comm (b := l.length), eq_comm (b := ofBits l)]
    · intro a ha b hb h h'
      rw [decide_eq_true_eq] at h h'
      exact hunique a ha b hb (code_ext (h.1.trans h'.1.symm) (h.2.trans h'.2.symm))
  prefix_free := by decide
  ne_nil := by decide

theorem prefixFree_hand : PrefixFree (fun l => handCode? l.length (ofBits l))
    (fun raw => (handCode raw).word) (fun raw => raw.isHandPiece = true) where
  dict_iff l raw := by
    have hunique : ∀ a ∈ PieceType.handTypes, ∀ b ∈ PieceType.handTypes,
        handCode a = handCode b → a = b := by
      decide
    rw [handCode?, find?_eq_some_iff]
    · rw [PieceType.mem_handTypes]
      refine and_congr_right fun _ => ?_
      rw [HuffmanCode.word, eq_bitsOf_iff (code_lt raw).2, decide_eq_true_eq,
        eq_comm (b := l.length), eq_comm (b := ofBits l)]
      exact Iff.rfl
    · intro a ha b hb h h'
      rw [decide_eq_true_eq] at h h'
      exact hunique a ha b hb (code_ext (h.1.trans h'.1.symm) (h.2.trans h'.2.symm))
  prefix_free := by decide
  ne_nil := by decide

theorem exact_readBoardType :
    Exact p.bit 256 p.readBoardType (fun raw => (kBoardCodes raw).word) BoardRaw := by
  have h : p.readBoardType = _ := @readCode_eq p boardCode? 6 []
  rw [h]
  exact prefixFree_board.exact exact_readBit (by decide)

theorem exact_readHandCode : Exact p.bit 256 (p.readCode handCode? 5 1 0)
    (fun raw => (handCode raw).word) (fun raw => raw.isHandPiece = true) := by
  have h : p.readCode handCode? 5 1 0 = _ := @readCode_eq p handCode? 5 []
  rw [h]
  exact prefixFree_hand.exact exact_readBit (by decide)

theorem exact_readPromoted {raw : PieceType} : Exact p.bit 256 (p.readPromoted raw)
    (promotedBit raw) (fun x => raw = .gold → x = false) := by
  by_cases hg : raw = .gold
  · rw [readPromoted, if_neg (not_not.mpr hg)]
    exact exact_pure.congr (fun x => ⟨fun h _ => h, fun h => h hg⟩) fun x _ =>
      (if_pos hg : promotedBit raw x = []).symm
  · rw [readPromoted, if_pos hg]
    exact exact_readBit.congr (fun x => iff_of_true trivial fun h => absurd h hg) fun x _ =>
      (if_neg hg : promotedBit raw x = [x]).symm

/-! ## Men -/

/-- `white ? WHITE : BLACK`. -/
theorem exact_readColor {α : Type} {g : Color → α} (color : α → Color)
    (hg : ∀ c, color (g c) = c) :
    Exact p.bit 256 (p.readBit >>= fun white => pure (g (if white then .white else .black)))
      (fun a => [colorFlag (color a)]) (fun a => a = g (color a)) := by
  have hflag : ∀ x : Bool, colorFlag (if x then .white else .black) = x := by decide
  have hcolor : ∀ c : Color, (if colorFlag c then Color.white else .black) = c := by decide
  refine (exact_readBit.bind (fun a => colorFlag (color a)) (fun white _ => exact_pure) ?_).congr
    (fun a => ?_) fun a _ => List.append_nil _
  · rintro white a - rfl
    rw [hg, hflag]
  · rw [hcolor]
    exact and_iff_right trivial

/-- What may stand on a square without a king. -/
def BoardMan (piece : Piece) : Prop :=
  piece = .none ∨ piece.type.isValid = true ∧ piece.type ≠ .king

/-- What may be listed in the hands. -/
def HandMan (piece : HandPiece) : Prop :=
  piece.raw.isHandPiece = true ∧ (piece.raw = .gold → piece.pieceBox = false)

instance : DecidablePred BoardMan := fun _ => inferInstanceAs (Decidable (_ ∨ _))

/-- The raw type of what stands on a square. -/
def rawOf (piece : Piece) : PieceType := if piece.isNone then .none else rawType piece.type

/-- What `ReadBoardPiece` makes of a raw type other than none. -/
def MadeOf (raw : PieceType) (piece : Piece) : Prop :=
  (raw = .gold → piece.type.isPromoted = false) ∧
    piece = ⟨piece.color, if piece.type.isPromoted then raw.promote else raw⟩

instance (raw : PieceType) (piece : Piece) : Decidable (MadeOf raw piece) :=
  inferInstanceAs (Decidable (_ ∧ _))

theorem boardMan_iff (piece : Piece) : BoardRaw (rawOf piece) ∧
    (if rawOf piece = .none then piece = .none else MadeOf (rawOf piece) piece) ↔
      BoardMan piece := by
  obtain ⟨c, pt⟩ := piece
  revert c pt
  decide

theorem rawOf_madeOf : ∀ (raw : PieceType) (x : Bool) (c : Color), raw.isHandPiece = true →
    (raw = .gold → x = false) → rawOf ⟨c, if x then raw.promote else raw⟩ = raw := by
  decide

theorem exact_readBoardPiece : Exact p.bit 256 p.readBoardPiece boardWord BoardMan := by
  have hcolor : ∀ type, Exact p.bit 256
      (p.readBit >>= fun white => pure (⟨if white then .white else .black, type⟩ : Piece))
      (fun a => [colorFlag a.color]) (fun a => a = ⟨a.color, type⟩) :=
    fun type => @exact_readColor p Piece (fun c => ⟨c, type⟩) Piece.color fun _ => rfl
  have hpromoted : ∀ (raw : PieceType) (x : Bool), raw.isHandPiece = true →
      (raw = .gold → x = false) → (if x then raw.promote else raw).isPromoted = x := by decide
  have hman : ∀ raw, raw.isHandPiece = true → Exact p.bit 256
      (p.readPromoted raw >>= fun promoted => p.readBit >>= fun white =>
        pure (⟨if white then .white else .black, if promoted then raw.promote else raw⟩ : Piece))
      (fun a => promotedBit raw a.type.isPromoted ++ [colorFlag a.color]) (MadeOf raw) := by
    intro raw hraw
    refine exact_readPromoted.bind (fun a : Piece => a.type.isPromoted) (fun x _ => hcolor _) ?_
    rintro x a hx h
    rw [h]
    exact hpromoted raw x hraw hx
  have hrest : ∀ raw, BoardRaw raw → Exact p.bit 256
      (if raw = .none then pure .none
        else p.readPromoted raw >>= fun promoted => p.readBit >>= fun white =>
          pure (⟨if white then .white else .black, if promoted then raw.promote else raw⟩ : Piece))
      (fun a => if raw = .none then [] else promotedBit raw a.type.isPromoted ++ [colorFlag a.color])
      (fun a => if raw = .none then a = .none else MadeOf raw a) := by
    intro raw hraw
    by_cases hn : raw = .none
    · simp only [hn, if_true]
      exact exact_pure
    · simp only [hn, if_false]
      exact hman raw (PieceType.mem_handTypes.mp ((List.mem_cons.mp hraw).resolve_left hn))
  refine (exact_readBoardType.bind rawOf hrest ?_).congr boardMan_iff fun a ha => ?_
  · rintro raw a hraw h
    by_cases hn : raw = .none
    · rw [hn, if_pos rfl] at h
      rw [h, hn]
      rfl
    · rw [if_neg hn] at h
      have hhand := PieceType.mem_handTypes.mp ((List.mem_cons.mp hraw).resolve_left hn)
      rw [h.2]
      exact rawOf_madeOf raw a.type.isPromoted a.color hhand h.1
  · rw [boardWord, rawOf]
    cases hn : a.isNone with
    | true => rfl
    | false =>
      have hne : rawType a.type ≠ .none := by
        intro e
        have h := ha.2
        rw [rawOf, hn, if_neg Bool.false_ne_true, if_pos e] at h
        rw [h] at hn
        cases hn
      rw [if_neg Bool.false_ne_true, if_neg Bool.false_ne_true, if_neg hne]

theorem exact_readHandPiece : Exact p.bit 256 p.readHandPiece handWord HandMan := by
  have hcolor : ∀ raw pieceBox, Exact p.bit 256
      (p.readBit >>= fun white => pure (⟨raw, if white then .white else .black, pieceBox⟩ : HandPiece))
      (fun a => [colorFlag a.color]) (fun a => a = ⟨raw, a.color, pieceBox⟩) :=
    fun raw pieceBox => @exact_readColor p HandPiece (fun c => ⟨raw, c, pieceBox⟩) HandPiece.color
      fun _ => rfl
  have hman : ∀ raw, Exact p.bit 256 (p.readPromoted raw >>= fun pieceBox => p.readBit >>=
      fun white => pure (⟨raw, if white then .white else .black, pieceBox⟩ : HandPiece)) _ _ :=
    fun raw => exact_readPromoted.bind HandPiece.pieceBox (fun x _ => hcolor raw x) (by
      rintro x a - h
      rw [h])
  refine (exact_readHandCode.bind HandPiece.raw (fun raw _ => hman raw) ?_).congr
    (fun a => ?_) fun a _ => rfl
  · rintro raw a - ⟨-, h⟩
    rw [h]
  · exact and_congr_right fun _ => and_iff_left rfl

end Codes

/-! ## Listings -/

/-- The king squares as numbers, by colour. -/
def kingsAt (blackKing whiteKing : Nat) : Color → Nat
  | .black => blackKing
  | .white => whiteKing

/-- A king is listed on the square. -/
def KingOn (king : Color → Nat) (s : Square) : Prop := s.val = king .black ∨ s.val = king .white

instance (king : Color → Nat) : DecidablePred (KingOn king) :=
  fun _ => inferInstanceAs (Decidable (_ ∨ _))

/-- The word of a square. -/
def wordOn (king : Color → Nat) (man : Square → Piece) (s : Square) : List Bool :=
  if KingOn king s then [] else boardWord (man s)

/-- Put a listed man on the board. -/
def putMan (king : Color → Nat) (man : Square → Piece) (b : ShogiBoard) (s : Square) :
    ShogiBoard :=
  if KingOn king s then b else if !(man s).isNone then b.putPiece s (man s) else b

/-- Put a listed man into a hand, unless it is a missing one. -/
def addHand (b : ShogiBoard) (piece : HandPiece) : ShogiBoard :=
  if !piece.pieceBox then b.setHand piece.color ((b.hand piece.color).add piece.raw) else b

/-- What a stream lists: the side to move, the king squares, the other squares and the men in hand
or missing. -/
structure Listing where
  turn : Color
  king : Color → Nat
  man : Square → Piece
  hands : List HandPiece

namespace Listing

/-- The bits of a listing. -/
def word (L : Listing) : List Bool :=
  bitsOf (colorBit L.turn) 1 ++ (bitsOf (L.king .black) 7 ++ (bitsOf (L.king .white) 7 ++
    ((List.finRange 81).flatMap (wordOn L.king L.man) ++ L.hands.flatMap handWord)))

/-- The listing has a proper form. -/
structure Valid (L : Listing) : Prop where
  king_le : ∀ c, L.king c ≤ 81
  kings_ne : L.king .black < 81 → L.king .black ≠ L.king .white
  men : ∀ s, ¬ KingOn L.king s → BoardMan (L.man s)
  hands : ∀ piece ∈ L.hands, HandMan piece

/-- The board of a listing. -/
def setUp (L : Listing) (gamePly : Int) : ShogiBoard :=
  let b := { ShogiBoard.new with
    sideToMove := L.turn
    ply := max 1 gamePly }
  let b := placeKing b .black (L.king .black)
  let b := placeKing b .white (L.king .white)
  let b := (List.finRange 81).foldl (putMan L.king L.man) b
  (L.hands.foldl addHand b).computeHash.clearHistory

end Listing

/-- The stream is the word of the listing. -/
def Spells (p : PackedSfen) (L : Listing) : Prop :=
  L.Valid ∧ Holds p.bit 0 L.word ∧ L.word.length = 256

section Decoder

variable {p : PackedSfen} {i j : Nat} {b b' : ShogiBoard}

theorem readSquares_eq_some {blackKing whiteKing : Nat} {l : List Square} (hl : l.Nodup)
    (hi : i ≤ 256) : p.readSquares blackKing whiteKing l b i = some (b', j) ↔
      ∃ man, (∀ s ∈ l, ¬ KingOn (kingsAt blackKing whiteKing) s → BoardMan (man s)) ∧
        Holds p.bit i (l.flatMap (wordOn (kingsAt blackKing whiteKing) man)) ∧
        j = i + (l.flatMap (wordOn (kingsAt blackKing whiteKing) man)).length ∧ j ≤ 256 ∧
        b' = l.foldl (putMan (kingsAt blackKing whiteKing) man) b := by
  induction l generalizing b i with
  | nil =>
    refine pure_eq_some.trans ?_
    constructor
    · rintro ⟨⟩
      exact ⟨fun _ => .none, fun s hs => absurd hs List.not_mem_nil, holds_nil, rfl, hi, rfl⟩
    · rintro ⟨man, -, -, rfl, -, rfl⟩
      rfl
  | cons s l ih =>
    obtain ⟨hs, hl⟩ := List.nodup_cons.mp hl
    rw [readSquares]
    by_cases hk : KingOn (kingsAt blackKing whiteKing) s
    · -- a king's square takes no bits
      have hk' : s.val = blackKing ∨ s.val = whiteKing := hk
      rw [if_pos hk', ih hl hi]
      refine exists_congr fun man => ?_
      have hword : wordOn (kingsAt blackKing whiteKing) man s = [] := if_pos hk
      have hput : putMan (kingsAt blackKing whiteKing) man b s = b := if_pos hk
      rw [List.flatMap_cons, hword, List.nil_append, List.foldl_cons, hput, List.forall_mem_cons]
      exact and_congr_left' (and_iff_right fun h => absurd hk h).symm
    · have hk' : ¬ (s.val = blackKing ∨ s.val = whiteKing) := hk
      have hword : ∀ man, wordOn (kingsAt blackKing whiteKing) man s = boardWord (man s) :=
        fun man => if_neg hk
      have hput : ∀ man, putMan (kingsAt blackKing whiteKing) man b s =
          if !(man s).isNone then b.putPiece s (man s) else b := fun man => if_neg hk
      rw [if_neg hk', bind_eq_some]
      constructor
      · rintro ⟨piece, k, hread, hrest⟩
        obtain ⟨hman, hholds, rfl, hlimit⟩ := (exact_readBoardPiece _ _ _ hi).mp hread
        obtain ⟨man, hmen, hholds', rfl, hlimit', rfl⟩ := (ih hl hlimit).mp hrest
        -- the other squares do not notice what is listed here
        have hne : ∀ x ∈ l, Function.update man s piece x = man x :=
          fun x hx => Function.update_of_ne (ne_of_mem_of_not_mem hx hs) _ _
        have hself : Function.update man s piece s = piece := Function.update_self s piece man
        have hflat : l.flatMap (wordOn (kingsAt blackKing whiteKing) (Function.update man s piece)) =
            l.flatMap (wordOn (kingsAt blackKing whiteKing) man) :=
          List.flatMap_congr fun x hx => by rw [wordOn, wordOn, hne x hx]
        have hfold : ∀ c, l.foldl (putMan (kingsAt blackKing whiteKing)
            (Function.update man s piece)) c =
            l.foldl (putMan (kingsAt blackKing whiteKing) man) c :=
          fun c => List.foldl_ext _ _ _ fun c x hx => by rw [putMan, putMan, hne x hx]
        refine ⟨Function.update man s piece, ?_, ?_, ?_, hlimit', ?_⟩
        · rw [List.forall_mem_cons]
          refine ⟨fun _ => hself.symm ▸ hman, fun x hx hkx => ?_⟩
          rw [hne x hx]
          exact hmen x hx hkx
        · rw [List.flatMap_cons, hword, hself, hflat, holds_append]
          exact ⟨hholds, hholds'⟩
        · rw [List.flatMap_cons, hword, hself, hflat, List.length_append, Nat.add_assoc]
        · rw [List.foldl_cons, hput, hself, hfold]
      · rintro ⟨man, hmen, hholds, hj, hlimit, rfl⟩
        rw [List.flatMap_cons, hword, List.length_append, ← Nat.add_assoc] at hj
        rw [List.flatMap_cons, hword, holds_append] at hholds
        rw [List.forall_mem_cons] at hmen
        have hk256 : i + (boardWord (man s)).length ≤ 256 := by omega
        refine ⟨man s, i + (boardWord (man s)).length,
          (exact_readBoardPiece _ _ _ hi).mpr ⟨hmen.1 hk, hholds.1, rfl, hk256⟩, ?_⟩
        refine (ih hl hk256).mpr ⟨man, hmen.2, hholds.2, hj, hlimit, ?_⟩
        rw [List.foldl_cons, hput]

theorem handWord_ne_nil {piece : HandPiece} : 1 ≤ (handWord piece).length := by
  rw [ShogiBoard.length_handWord, ShogiBoard.handLength]
  omega

theorem readHands_eq_some {n : Nat} (hi : i ≤ 256) (hn : 256 - i < n) :
    p.readHands n b i = some (b', j) ↔ ∃ hands : List HandPiece, (∀ piece ∈ hands, HandMan piece) ∧
      Holds p.bit i (hands.flatMap handWord) ∧ j = i + (hands.flatMap handWord).length ∧
      j = 256 ∧ b' = hands.foldl addHand b := by
  induction n generalizing b i with
  | zero => omega
  | succ n ih =>
    rw [readHands]
    dsimp only
    by_cases hlt : i < 256
    · rw [if_pos hlt, bind_eq_some]
      constructor
      · rintro ⟨piece, k, hread, hrest⟩
        obtain ⟨hman, hholds, rfl, hlimit⟩ := (exact_readHandPiece _ _ _ hi).mp hread
        have hpos := @handWord_ne_nil piece
        obtain ⟨hands, hmen, hholds', hj, h256, rfl⟩ := (ih hlimit (by omega)).mp hrest
        refine ⟨piece :: hands, List.forall_mem_cons.mpr ⟨hman, hmen⟩, ?_, ?_, h256, rfl⟩
        · rw [List.flatMap_cons, holds_append]
          exact ⟨hholds, hholds'⟩
        · rw [List.flatMap_cons, List.length_append, hj, Nat.add_assoc]
      · rintro ⟨hands, hmen, hholds, hj, h256, rfl⟩
        cases hands with
        | nil => exact absurd (hj.symm.trans h256) (by simpa using hlt.ne)
        | cons piece hands =>
          rw [List.flatMap_cons, holds_append] at hholds
          rw [List.flatMap_cons, List.length_append] at hj
          rw [List.forall_mem_cons] at hmen
          have hpos := @handWord_ne_nil piece
          have hk256 : i + (handWord piece).length ≤ 256 := by omega
          refine ⟨piece, i + (handWord piece).length,
            (exact_readHandPiece _ _ _ hi).mpr ⟨hmen.1, hholds.1, rfl, hk256⟩, ?_⟩
          exact (ih hk256 (by omega)).mpr ⟨hands, hmen.2, hholds.2, by omega, h256, rfl⟩
    · have h256 : i = 256 := by omega
      subst h256
      rw [if_neg hlt, if_neg (not_not.mpr rfl), Option.some_inj, Prod.mk.injEq]
      constructor
      · rintro ⟨rfl, rfl⟩
        exact ⟨[], fun _ h => absurd h List.not_mem_nil, holds_nil, rfl, rfl, rfl⟩
      · rintro ⟨hands, hmen, hholds, hj, h256, rfl⟩
        cases hands with
        | nil => exact ⟨rfl, h256.symm⟩
        | cons piece hands =>
          have hpos := @handWord_ne_nil piece
          rw [List.flatMap_cons, List.length_append] at hj
          omega

/-- The word of a listing on the stream, part by part. -/
theorem holds_word {L : Listing} : Holds p.bit 0 L.word ↔
    Holds p.bit 0 (bitsOf (colorBit L.turn) 1) ∧ Holds p.bit 1 (bitsOf (L.king .black) 7) ∧
      Holds p.bit 8 (bitsOf (L.king .white) 7) ∧
      Holds p.bit 15 ((List.finRange 81).flatMap (wordOn L.king L.man)) ∧
      Holds p.bit (15 + ((List.finRange 81).flatMap (wordOn L.king L.man)).length)
        (L.hands.flatMap handWord) := by
  simp only [Listing.word, holds_append, length_bitsOf, Nat.zero_add, Nat.reduceAdd]

theorem length_word {L : Listing} : L.word.length =
    15 + ((List.finRange 81).flatMap (wordOn L.king L.man)).length +
      (L.hands.flatMap handWord).length := by
  simp only [Listing.word, List.length_append, length_bitsOf]
  omega

/-- The decoder sets up what the stream spells. -/
theorem decode_eq_some {gamePly : Int} : p.decode gamePly 0 = some (b', j) ↔
    ∃ L, p.Spells L ∧ b' = L.setUp gamePly ∧ j = 256 := by
  rw [decode, bind_eq_some]
  constructor
  · rintro ⟨turn, k₁, hread, h⟩
    obtain ⟨hturn, hholds₁, rfl, hk₁⟩ := read_eq_some.mp hread
    obtain ⟨blackKing, k₂, hread, h⟩ := bind_eq_some.mp h
    obtain ⟨-, hholds₂, rfl, hk₂⟩ := read_eq_some.mp hread
    obtain ⟨whiteKing, k₃, hread, h⟩ := bind_eq_some.mp h
    obtain ⟨-, hholds₃, rfl, hk₃⟩ := read_eq_some.mp hread
    split at h
    · exact absurd h failure_ne_some
    · rename_i hkings
      push Not at hkings
      obtain ⟨-, hblack, hwhite, hne⟩ := hkings
      obtain ⟨b₁, k₄, hsquares, h⟩ := bind_eq_some.mp h
      obtain ⟨man, hmen, hholds₄, rfl, hk₄, rfl⟩ :=
        (readSquares_eq_some (List.nodup_finRange 81) hk₃).mp hsquares
      obtain ⟨b₂, k₅, hhands, h⟩ := bind_eq_some.mp h
      obtain ⟨hands, hhandmen, hholds₅, hj, h256, rfl⟩ :=
        (readHands_eq_some hk₄ (by omega)).mp hhands
      cases pure_eq_some.mp h
      have hcolor : colorBit (if turn = 0 then .black else .white) = turn := by
        rcases (by omega : turn = 0 ∨ turn = 1) with rfl | rfl <;> rfl
      refine ⟨⟨if turn = 0 then .black else .white, kingsAt blackKing whiteKing, man, hands⟩,
        ⟨⟨?_, hne, fun s => hmen s (List.mem_finRange s), hhandmen⟩, ?_, ?_⟩, rfl, h256⟩
      · intro c
        cases c
        · exact hblack
        · exact hwhite
      · refine holds_word.mpr ⟨?_, hholds₂, hholds₃, hholds₄, hholds₅⟩
        rw [hcolor]
        exact hholds₁
      · refine length_word.trans ?_
        dsimp only
        omega
  · rintro ⟨L, ⟨hvalid, hholds, hlen⟩, rfl, rfl⟩
    obtain ⟨hholds₁, hholds₂, hholds₃, hholds₄, hholds₅⟩ := holds_word.mp hholds
    rw [length_word] at hlen
    have hking : L.king = kingsAt (L.king .black) (L.king .white) := by
      funext c
      cases c <;> rfl
    have hbound : ∀ c, L.king c < 2 ^ 7 := fun c => by
      have := hvalid.king_le c
      omega
    have hturn : colorBit L.turn < 2 ^ 1 ∧
        (if colorBit L.turn = 0 then Color.black else .white) = L.turn := by
      cases L.turn <;> decide
    refine ⟨_, _, read_eq_some.mpr ⟨hturn.1, hholds₁, rfl, by omega⟩, ?_⟩
    refine bind_eq_some.mpr ⟨_, _, read_eq_some.mpr ⟨hbound .black, hholds₂, rfl, by omega⟩, ?_⟩
    refine bind_eq_some.mpr ⟨_, _, read_eq_some.mpr ⟨hbound .white, hholds₃, rfl, by omega⟩, ?_⟩
    have hok : ¬ (colorBit L.turn > 1 ∨ L.king .black > 81 ∨ L.king .white > 81 ∨
        (L.king .black < 81 ∧ L.king .black = L.king .white)) := by
      have h1 := hturn.1
      have h2 := hvalid.king_le .black
      have h3 := hvalid.king_le .white
      rintro (h | h | h | h)
      · omega
      · omega
      · omega
      · exact hvalid.kings_ne h.1 h.2
    rw [if_neg hok, hturn.2]
    generalize hword : (List.finRange 81).flatMap (wordOn L.king L.man) = squares at *
    refine bind_eq_some.mpr ⟨_, 15 + squares.length,
      (readSquares_eq_some (List.nodup_finRange 81) (by omega)).mpr
        ⟨L.man, fun s _ hs => hvalid.men s (hking ▸ hs), ?_, ?_, by omega, rfl⟩, ?_⟩
    · rw [← hking, hword]
      exact hholds₄
    · rw [← hking, hword]
    · refine bind_eq_some.mpr ⟨_, _, (readHands_eq_some (by omega) (by omega)).mpr
        ⟨L.hands, hvalid.hands, hholds₅, rfl, hlen, rfl⟩, pure_eq_some.mpr ?_⟩
      rw [hlen, ← hking]
      rfl

end Decoder

end PackedSfen

/-- `SetFromPackedSfen` succeeds on the words of listings and sets these up. -/
theorem ShogiBoard.setFromPackedSfen_eq_some {p : PackedSfen} {gamePly : Int} {b : ShogiBoard} :
    setFromPackedSfen p gamePly = some b ↔ ∃ L, p.Spells L ∧ b = L.setUp gamePly := by
  rw [setFromPackedSfen, Option.map_eq_some_iff]
  constructor
  · rintro ⟨⟨b', j⟩, h, rfl⟩
    obtain ⟨L, hL, hb, -⟩ := PackedSfen.decode_eq_some.mp h
    exact ⟨L, hL, hb⟩
  · rintro ⟨L, hL, hb⟩
    exact ⟨(b, 256), PackedSfen.decode_eq_some.mpr ⟨L, hL, hb, rfl⟩, rfl⟩

end Shogi
