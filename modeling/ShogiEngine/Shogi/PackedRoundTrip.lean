import ShogiEngine.Shogi.PackedCodes

/-!
# Packed positions

Writing a position and reading it again, and what the decoder accepts.

## Main definitions

- `ShogiBoard.listing`: the listing that the encoder writes
- `Listing.total`: the men that a listing has on the board and in the hands

## Main results

- `toPackedSfen_correct`: when the encoder succeeds, and that the decoder restores the board
- `decodesWithinSet_iff`: on which streams the decoder keeps to the physical set
-/

namespace Shogi

namespace PackedSfen

open BitTape

/-! ## The bits of the writer -/

section Written

variable {p : PackedSfen} {w : BitWriter} {l : List Bool} {i j : Nat}

theorem bit_setBit (hi : i < 256) : (p.setBit i).bit j = (p.bit j || decide (j = i)) := by
  rw [bit, bit]
  by_cases hj : j < 256
  · rw [dif_pos hj, dif_pos hj, setBit]
    dsimp only
    by_cases hk : j / 8 = i / 8
    · rw [if_pos hk, BitVec.getLsbD_or, BitVec.getLsbD_shiftLeft]
      congr 1
      rw [BitVec.getLsbD_one, Bool.eq_iff_iff]
      simp only [Bool.and_eq_true, Bool.not_eq_true', decide_eq_true_eq, decide_eq_false_iff_not]
      omega
    · rw [if_neg hk, decide_eq_false (by rintro rfl; exact hk rfl), Bool.or_false]
  · rw [dif_neg hj, dif_neg hj, decide_eq_false (by omega), Bool.or_false]

/-- The bits of a word, once appended. -/
theorem bit_foldl_put (h : w.cursor + l.length ≤ 256) : (l.foldl BitWriter.put w).packed.bit j =
    (w.packed.bit j || (decide (w.cursor ≤ j) && l.getD (j - w.cursor) false)) := by
  induction l generalizing w with
  | nil => simp
  | cons x l ih =>
    rw [List.length_cons] at h
    have hput : (w.put x).cursor + l.length ≤ 256 := by
      change w.cursor + 1 + l.length ≤ 256
      omega
    have hbit : (w.put x).packed.bit j = (w.packed.bit j || (decide (j = w.cursor) && x)) := by
      cases x with
      | false => simp [BitWriter.put]
      | true =>
        rw [Bool.and_true]
        exact bit_setBit (by omega)
    rw [List.foldl_cons, ih hput, hbit, Bool.or_assoc]
    congr 1
    change (decide (j = w.cursor) && x || (decide (w.cursor + 1 ≤ j) &&
      l.getD (j - (w.cursor + 1)) false)) = _
    rcases Nat.lt_trichotomy j w.cursor with hj | hj | hj
    · simp [Nat.not_le.mpr hj, hj.ne, show ¬ w.cursor + 1 ≤ j by omega]
    · subst hj
      simp
    · obtain ⟨k, rfl⟩ := Nat.exists_eq_add_of_lt hj
      have h1 : w.cursor + k + 1 - w.cursor = k + 1 := by omega
      have h2 : w.cursor + k + 1 - (w.cursor + 1) = k := by omega
      simp [h1, h2, show w.cursor + k + 1 ≠ w.cursor by omega, show w.cursor ≤ w.cursor + k + 1 by omega]

/-- What a new writer has written stands on its stream. -/
theorem holds_written (h : BitWriter.new.append l = some w) :
    w.cursor = l.length ∧ Holds w.packed.bit 0 l := by
  obtain ⟨hlen, rfl⟩ := append_eq_some.mp h
  have hzero : ∀ j, BitWriter.new.packed.bit j = false := by
    intro j
    rw [bit]
    split
    · exact BitVec.getLsbD_zero
    · rfl
  refine ⟨?_, fun j hj => ?_⟩
  · rw [cursor_foldl_put]
    exact Nat.zero_add _
  · rw [bit_foldl_put hlen, hzero]
    simp [BitWriter.new, hj]

end Written

/-! ## The board of a listing -/

/-- The men of a hand section that go to one hand. -/
def inHand (hands : List HandPiece) (c : Color) (pt : PieceType) : Nat :=
  hands.countP fun piece => !piece.pieceBox && piece.color == c && piece.raw == pt

/-- The men of a base type that a listing has on the board and in the hands. -/
def Listing.total (L : Listing) (pt : PieceType) : Nat :=
  (∑ s, if KingOn L.king s then 0 else
    Position.worth pt (if L.man s = .none then none else some (L.man s))) +
    inHand L.hands .black pt + inHand L.hands .white pt

section SetUp

variable {b : ShogiBoard} {king : Color → Nat} {man : Square → Piece} {l : List Square}
  {hands : List HandPiece} {s : Square} {c : Color}

/-- The board loop puts every listed man on its square and touches nothing else. -/
theorem board_foldl_putMan (hl : l.Nodup) : (l.foldl (putMan king man) b).board s =
    if s ∈ l ∧ ¬ KingOn king s ∧ (man s).isNone = false then man s else b.board s := by
  induction l generalizing b with
  | nil => simp
  | cons x l ih =>
    obtain ⟨hx, hl⟩ := List.nodup_cons.mp hl
    rw [List.foldl_cons, ih hl]
    have hput : (putMan king man b x).board s =
        if s = x ∧ ¬ KingOn king s ∧ (man s).isNone = false then man s else b.board s := by
      rw [putMan]
      by_cases hs : s = x
      · subst hs
        by_cases hk : KingOn king s
        · simp [hk]
        · cases hn : (man s).isNone with
          | true => simp [hk]
          | false => simp [hk, ShogiBoard.putPiece]
      · have hother : ∀ q, (b.putPiece x q).board s = b.board s :=
          fun q => Function.update_of_ne hs _ _
        have hno : ¬ (s = x ∧ ¬ KingOn king s ∧ (man s).isNone = false) := fun h => hs h.1
        rw [if_neg hno]
        split
        · rfl
        · split
          · exact hother _
          · rfl
    rw [hput]
    by_cases hs : s = x
    · subst hs
      simp [hx]
    · simp [hs]

theorem foldl_putMan_rest : (l.foldl (putMan king man) b).hand = b.hand ∧
    (l.foldl (putMan king man) b).sideToMove = b.sideToMove := by
  induction l generalizing b with
  | nil => exact ⟨rfl, rfl⟩
  | cons x l ih =>
    rw [List.foldl_cons, ih.1, ih.2, putMan]
    split
    · exact ⟨rfl, rfl⟩
    · split <;> exact ⟨rfl, rfl⟩

theorem foldl_addHand_rest : (hands.foldl addHand b).board = b.board ∧
    (hands.foldl addHand b).sideToMove = b.sideToMove := by
  induction hands generalizing b with
  | nil => exact ⟨rfl, rfl⟩
  | cons piece hands ih =>
    rw [List.foldl_cons, ih.1, ih.2, addHand]
    split <;> exact ⟨rfl, rfl⟩

/-- One man more in one hand. -/
theorem inHand_cons {piece : HandPiece} {pt : PieceType} : inHand (piece :: hands) c pt =
    inHand hands c pt +
      if piece.pieceBox = false ∧ piece.color = c ∧ piece.raw = pt then 1 else 0 := by
  rw [inHand, List.countP_cons]
  congr 1
  simp [and_assoc]

/-- The hand loop counts, as long as every field of a hand has room. -/
theorem hand_foldl_addHand (hclean : ∀ c, (b.hand c).Clean)
    (hraw : ∀ piece ∈ hands, piece.raw.isHandPiece = true)
    (hroom : ∀ c pt, pt.isHandPiece = true →
      (b.hand c).count pt + inHand hands c pt < 2 ^ Hand.kWidth pt) (c : Color) :
    ((hands.foldl addHand b).hand c).Clean ∧
      ∀ pt, ((hands.foldl addHand b).hand c).count pt = (b.hand c).count pt + inHand hands c pt := by
  induction hands generalizing b with
  | nil => exact ⟨hclean c, fun _ => rfl⟩
  | cons piece hands ih =>
    obtain ⟨hpiece, hraw⟩ := List.forall_mem_cons.mp hraw
    simp only [inHand_cons] at hroom ⊢
    rw [List.foldl_cons, addHand]
    cases hbox : piece.pieceBox with
    | true =>
      simp only [hbox, Bool.true_eq_false, false_and, if_false, Nat.add_zero] at hroom ⊢
      exact ih hclean hraw hroom
    | false =>
      simp only [hbox, true_and] at hroom ⊢
      have hself := hroom piece.color piece.raw hpiece
      rw [if_pos ⟨rfl, rfl⟩] at hself
      have hone : (b.hand piece.color).count piece.raw + 1 < 2 ^ Hand.kWidth piece.raw := by
        omega
      have hadd := Hand.count_add hpiece hone
      -- the hand of each side after this man
      have hcount : ∀ c pt, ((b.setHand piece.color ((b.hand piece.color).add piece.raw)).hand
          c).count pt = (b.hand c).count pt +
            if piece.color = c ∧ piece.raw = pt then 1 else 0 := by
        intro c pt
        simp only [ShogiBoard.setHand, Function.update_apply]
        by_cases hc : c = piece.color
        · subst hc
          rw [if_pos rfl, hadd pt]
          by_cases hpt : pt = piece.raw
          · simp [hpt]
          · simp [hpt, Ne.symm hpt]
        · simp [hc, Ne.symm hc]
      have hclean' : ∀ c, ((b.setHand piece.color ((b.hand piece.color).add piece.raw)).hand
          c).Clean := by
        intro c
        simp only [ShogiBoard.setHand, Function.update_apply]
        split
        · exact (hclean _).add fun _ => hone
        · exact hclean c
      have hroom' : ∀ c pt, pt.isHandPiece = true →
          ((b.setHand piece.color ((b.hand piece.color).add piece.raw)).hand c).count pt +
            inHand hands c pt < 2 ^ Hand.kWidth pt := by
        intro c pt hpt
        have := hroom c pt hpt
        rw [hcount]
        omega
      obtain ⟨h1, h2⟩ := ih hclean' hraw hroom'
      refine ⟨h1, fun pt => ?_⟩
      refine (h2 pt).trans ?_
      rw [hcount]
      omega

end SetUp

end PackedSfen

namespace ShogiBoard

open PackedSfen

/-! ## The listing of a board -/

/-- The men in the hands and the missing men, in the order of the encoder. -/
def listedHands (b : ShogiBoard) : List HandPiece :=
  (handsInOrder.flatMap fun hand =>
    List.replicate ((b.hand hand.1).count hand.2) ⟨hand.2, hand.1, false⟩) ++
      kHandOrder.flatMap fun raw => List.replicate (b.missing raw) (boxPiece raw)

/-- What the encoder lists. -/
def listing (b : ShogiBoard) : Listing := ⟨b.sideToMove, b.kingIdx, b.board, b.listedHands⟩

section RoundTrip

variable {b : ShogiBoard} {w : BitWriter} {s : Square} {c : Color}

theorem kingIdx_eq_val (hb : b.Consistent) : s.val = b.kingIdx c ↔ b.board s = ⟨c, .king⟩ := by
  rw [kingIdx]
  cases hk : b.kingSq c with
  | none =>
    refine iff_of_false (fun h => absurd s.isLt (by rw [h]; decide)) fun h => ?_
    rw [hb.king_sq c s h] at hk
    cases hk
  | some k =>
    rw [Option.map_some, Option.getD_some]
    constructor
    · intro h
      cases Fin.ext h
      exact hb.king_board c s hk
    · intro h
      rw [Option.some.inj ((hb.king_sq c s h).symm.trans hk)]

theorem kingOn_iff (hb : b.Consistent) : KingOn b.kingIdx s ↔ (b.board s).type = .king := by
  rw [KingOn, kingIdx_eq_val hb, kingIdx_eq_val hb]
  constructor
  · rintro (h | h) <;> rw [h]
  · intro h
    cases hc : (b.board s).color with
    | black => exact Or.inl (Piece.ext hc h)
    | white => exact Or.inr (Piece.ext hc h)

theorem kingIdx_le : b.kingIdx c ≤ 81 := by
  rw [kingIdx]
  cases b.kingSq c with
  | none => exact le_rfl
  | some k => exact k.isLt.le

theorem handMan_of_mem_listedHands {piece : HandPiece} (h : piece ∈ b.listedHands) :
    HandMan piece := by
  have hbox : ∀ raw ∈ kHandOrder, HandMan (boxPiece raw) := by
    intro raw hraw
    revert raw hraw
    simp only [HandMan]
    decide
  rw [listedHands, List.mem_append, List.mem_flatMap, List.mem_flatMap] at h
  rcases h with ⟨hand, hhand, h⟩ | ⟨raw, hraw, h⟩
  · rw [List.eq_of_mem_replicate h]
    exact ⟨isHandPiece_of_mem_handsInOrder hand hhand, fun _ => rfl⟩
  · rw [List.eq_of_mem_replicate h]
    exact hbox raw hraw

theorem valid_listing (hb : b.Consistent) : b.listing.Valid where
  king_le _ := kingIdx_le
  kings_ne h e := by
    have hk : ∀ c, (⟨b.kingIdx .black, h⟩ : Square).val = b.kingIdx c →
        b.board ⟨b.kingIdx .black, h⟩ = ⟨c, .king⟩ := fun c hc => (kingIdx_eq_val hb).mp hc
    have := (hk .black rfl).symm.trans (hk .white e)
    cases this
  men s hs := by
    by_cases hn : b.board s = .none
    · exact Or.inl hn
    · exact Or.inr ⟨hb.valid s hn, mt (kingOn_iff hb).mpr hs⟩
  hands _ h := handMan_of_mem_listedHands h

/-- The encoder writes its listing. -/
theorem word_listing (hb : b.Consistent) : b.listing.word = b.packedWord := by
  have hsquares : (List.finRange 81).flatMap (wordOn b.kingIdx b.board) =
      (List.finRange 81).flatMap b.squareWord :=
    List.flatMap_congr fun s _ => if_congr (kingOn_iff hb) rfl rfl
  have hreplicate : ∀ (n : Nat) (piece : HandPiece), (List.replicate n piece).flatMap handWord =
      (List.replicate n (handWord piece)).flatten := by
    intro n piece
    rw [List.flatMap_def, List.map_replicate]
  have hhands : b.listedHands.flatMap handWord =
      handsInOrder.flatMap b.handWords ++ missingWords b.missing := by
    simp only [listedHands, List.flatMap_append, List.flatMap_assoc, hreplicate]
    rfl
  change _ ++ (_ ++ (_ ++ ((List.finRange 81).flatMap (wordOn b.kingIdx b.board) ++
    b.listedHands.flatMap handWord))) = _
  rw [hsquares, hhands, packedWord, headerWord, menWords]
  simp only [List.append_assoc]
  rfl

theorem spells_listing (hb : b.Consistent) (h : b.toPackedSfen = some w) :
    w.packed.Spells b.listing := by
  obtain ⟨-, happ, h256⟩ := (toPackedSfen_eq_some hb.toAgree).mp h
  obtain ⟨hlen, hholds⟩ := holds_written happ
  refine ⟨valid_listing hb, ?_, ?_⟩
  · rw [word_listing hb]
    exact hholds
  · rw [word_listing hb, ← hlen, h256]

/-- The hands of the listing are those of the board; the missing men go to neither. -/
theorem inHand_listedHands {pt : PieceType} (hpt : pt.isHandPiece = true) :
    inHand b.listedHands c pt = (b.hand c).count pt := by
  have hbox : ∀ raw, (boxPiece raw).pieceBox = true := by decide
  have hmissing : (kHandOrder.flatMap fun raw =>
      List.replicate (b.missing raw) (boxPiece raw)).countP
        (fun piece => !piece.pieceBox && piece.color == c && piece.raw == pt) = 0 := by
    rw [List.countP_eq_zero]
    intro piece h
    obtain ⟨raw, -, h⟩ := List.mem_flatMap.mp h
    rw [List.eq_of_mem_replicate h, hbox]
    exact Bool.false_ne_true
  rw [inHand, listedHands, List.countP_append, hmissing, List.countP_flatMap]
  cases c <;> cases pt <;>
    first | exact absurd hpt (by decide) | simp [handsInOrder, kHandOrder, List.countP_replicate]

/-- The hash from scratch sees the men, the counts of the hands and the side to move. -/
theorem scratchHash_eq_of_count {b' : ShogiBoard} (hboard : b'.board = b.board)
    (hhand : ∀ c pt, (b'.hand c).count pt = (b.hand c).count pt)
    (hturn : b'.sideToMove = b.sideToMove) : b'.scratchHash = b.scratchHash := by
  have hhash : ∀ c, hashHand c (b'.hand c) = hashHand c (b.hand c) := by
    intro c
    simp only [hashHand, hhand]
  simp only [scratchHash, hboard, hhash, hturn]

/-- Clean hands with the same counts are the same word. -/
theorem hand_eq_of_count {h h' : Hand} (hc : h.Clean) (hc' : h'.Clean)
    (hcount : ∀ pt, h.count pt = h'.count pt) : h = h' := by
  have hdata : h.data.toNat = h'.data.toNat := by
    rw [hc.toNat_eq, hc'.toNat_eq]
    congr 1
    exact List.map_congr_left fun pt _ => hcount pt
  cases h
  cases h'
  exact congrArg Hand.mk (BitVec.eq_of_toNat_eq hdata)

theorem board_placeKing_eq {k : Nat} : (placeKing b c k).board s =
    if s.val = k then ⟨c, .king⟩ else b.board s := by
  split
  · rename_i h
    have hk : k < 81 := h ▸ s.isLt
    have hs : s = .fromIdx k := Fin.ext (h.trans (fromIdx_val hk).symm)
    rw [placeKing, if_pos hk, putPiece, hs]
    exact Function.update_self _ _ _
  · rename_i h
    exact board_placeKing h

theorem placeKing_rest {k : Nat} : (placeKing b c k).hand = b.hand ∧
    (placeKing b c k).sideToMove = b.sideToMove := by
  rw [placeKing]
  split <;> exact ⟨rfl, rfl⟩

/-- The hands that a listing sets up, as long as every field has room. -/
theorem hand_setUp {L : Listing} (hL : L.Valid) {gamePly : Int}
    (hroom : ∀ c pt, pt.isHandPiece = true → inHand L.hands c pt < 2 ^ Hand.kWidth pt)
    (c : Color) : ((L.setUp gamePly).hand c).Clean ∧
      ∀ pt, ((L.setUp gamePly).hand c).count pt = inHand L.hands c pt := by
  have hempty : ∀ pt, Hand.empty.count pt = 0 := by decide
  set b₁ := (List.finRange 81).foldl (putMan L.king L.man)
    (placeKing (placeKing { new with sideToMove := L.turn, ply := max 1 gamePly } .black
      (L.king .black)) .white (L.king .white)) with hb₁
  have hhand : b₁.hand = fun _ => .empty := by
    rw [hb₁, foldl_putMan_rest.1, placeKing_rest.1, placeKing_rest.1]
    rfl
  have hfold := @hand_foldl_addHand b₁ L.hands (fun c => by
      rw [hhand]
      exact Hand.clean_empty) (fun piece h => (hL.hands piece h).1) (fun c pt hpt => by
      rw [hhand, hempty, Nat.zero_add]
      exact hroom c pt hpt) c
  rw [hhand] at hfold
  refine ⟨hfold.1, fun pt => (hfold.2 pt).trans ?_⟩
  rw [hempty, Nat.zero_add]

/-- Kings where they are listed, and the listed men elsewhere. -/
theorem board_setUp {L : Listing} {gamePly : Int} : (L.setUp gamePly).board s =
    if s.val = L.king .white then ⟨.white, .king⟩
    else if s.val = L.king .black then ⟨.black, .king⟩ else L.man s := by
  have hfields : (L.setUp gamePly).board = ((List.finRange 81).foldl (putMan L.king L.man)
      (placeKing (placeKing { new with sideToMove := L.turn, ply := max 1 gamePly } .black
        (L.king .black)) .white (L.king .white))).board := foldl_addHand_rest.1
  rw [hfields, board_foldl_putMan (List.nodup_finRange 81), board_placeKing_eq,
    board_placeKing_eq]
  by_cases hk : KingOn L.king s
  · have hno : ¬ (s ∈ List.finRange 81 ∧ ¬ KingOn L.king s ∧ (L.man s).isNone = false) :=
      fun h => h.2.1 hk
    rw [if_neg hno]
    split
    · rfl
    · rename_i hwhite
      rw [if_pos (hk.resolve_right hwhite), if_pos (hk.resolve_right hwhite)]
  · rw [KingOn, not_or] at hk
    rw [if_neg hk.2, if_neg hk.1, if_neg hk.2, if_neg hk.1]
    split
    · rfl
    · rename_i hno
      have hnone : (L.man s).isNone = true := by
        by_contra hn
        exact hno ⟨List.mem_finRange s, fun h => h.elim hk.1 hk.2, by simpa using hn⟩
      exact (Piece.isNone_iff.mp hnone).symm

theorem sideToMove_setUp {L : Listing} {gamePly : Int} :
    (L.setUp gamePly).sideToMove = L.turn := by
  refine (foldl_addHand_rest.2).trans ?_
  rw [foldl_putMan_rest.2, placeKing_rest.2, placeKing_rest.2]

/-- The encoder succeeds iff both kings are on the board and the men are within the physical set. -/
theorem isSome_toPackedSfen_iff (hb : b.Consistent) : b.toPackedSfen.isSome = true ↔ b.HasKings ∧
    ∀ pt, pt.isHandPiece = true → b.total pt ≤ kPhysicalPieceCounts pt := by
  have hlength := fun hle => length_packedWord_eq_iff hb hle
  rw [Option.isSome_iff_exists]
  constructor
  · rintro ⟨w, h⟩
    obtain ⟨hle, happ, h256⟩ := (toPackedSfen_eq_some hb.toAgree).mp h
    exact ⟨(hlength hle).2.mp ((holds_written happ).1.symm.trans h256), hle⟩
  · rintro ⟨hk, hle⟩
    have h256 := (hlength hle).2.mpr hk
    have happ : BitWriter.new.append b.packedWord = some (b.packedWord.foldl BitWriter.put .new) :=
      append_eq_some.mpr ⟨(Nat.zero_add _).trans_le h256.le, rfl⟩
    exact ⟨_, (toPackedSfen_eq_some hb.toAgree).mpr
      ⟨hle, happ, (holds_written happ).1.trans h256⟩⟩

/-- The decoder restores what the encoder has written. -/
theorem exists_setFromPackedSfen (hb : b.Consistent) (h : b.toPackedSfen = some w) (gamePly : Int) :
    ∃ b', setFromPackedSfen w.packed gamePly = some b' ∧ b'.board = b.board ∧
      (∀ c pt, (b'.hand c).count pt = (b.hand c).count pt) ∧
      ((∀ c, (b.hand c).Clean) → b'.hand = b.hand) ∧ b'.sideToMove = b.sideToMove ∧
      (b.hash = b.scratchHash → b'.hash = b.hash) := by
  obtain ⟨hle, happ, h256⟩ := (toPackedSfen_eq_some hb.toAgree).mp h
  have hset := setFromPackedSfen_eq_some.mpr
    ⟨b.listing, spells_listing hb h, (rfl : b.listing.setUp gamePly = _)⟩
  have hfresh := fresh_of_setFromPackedSfen hset
  have hvalid := valid_listing hb
  -- what is within the set fits the fields of the hands
  have hroom : ∀ c pt, pt.isHandPiece = true →
      inHand b.listing.hands c pt < 2 ^ Hand.kWidth pt := by
    intro c pt hpt
    have hcount : inHand b.listing.hands c pt = _ := inHand_listedHands hpt
    have htotal : b.total pt = b.position.onBoard pt + (b.hand c).count pt +
      (b.hand (~~~c)).count pt := Position.total_eq c
    have := hle pt hpt
    have := lt_two_pow_kWidth hpt
    omega
  have hcount : ∀ c pt, ((b.listing.setUp gamePly).hand c).count pt = (b.hand c).count pt := by
    intro c pt
    cases hpt : pt.isHandPiece with
    | false => rw [Hand.count_of_not_handPiece hpt, Hand.count_of_not_handPiece hpt]
    | true => exact ((hand_setUp hvalid hroom c).2 pt).trans (inHand_listedHands hpt)
  have hboard : (b.listing.setUp gamePly).board = b.board := by
    funext s
    rw [board_setUp]
    have hking : ∀ c, s.val = b.listing.king c ↔ b.board s = ⟨c, .king⟩ :=
      fun c => kingIdx_eq_val hb
    simp only [hking]
    split
    · rename_i h
      exact h.symm
    · split
      · rename_i h
        exact h.symm
      · rfl
  have hturn : (b.listing.setUp gamePly).sideToMove = b.sideToMove := sideToMove_setUp
  refine ⟨_, hset, hboard, hcount, fun hclean => ?_, hturn, fun hhash => ?_⟩
  · funext c
    exact hand_eq_of_count (hand_setUp hvalid hroom c).1 (hclean c) (hcount c)
  · rw [hfresh.hash, hhash, scratchHash_eq_of_count hboard hcount hturn]

end RoundTrip

/-! ## What the decoder accepts -/

section Within

variable {b : ShogiBoard} {p : PackedSfen} {gamePly : Int} {L : Listing}

/-- What the decoder returns is within the physical set, its hands hold the men that the stream
lists, and it can be written again if both kings are on the board. -/
def DecodesWithinSet (p : PackedSfen) (gamePly : Int) : Prop :=
  ∀ b, setFromPackedSfen p gamePly = some b → b.WithinSet ∧
    (∀ L, p.Spells L → ∀ c pt, (b.hand c).count pt = inHand L.hands c pt) ∧
    (b.HasKings → b.toPackedSfen.isSome = true)

/-- The set-up has the men of the listing, if the hands have. -/
theorem total_setUp {pt : PieceType} (hpt : pt.isHandPiece = true)
    (hcount : ∀ c, ((L.setUp gamePly).hand c).count pt = inHand L.hands c pt) :
    (L.setUp gamePly).total pt = L.total pt := by
  have hking : ∀ c, Position.worth pt (some ⟨c, .king⟩) = 0 := by
    intro c
    rw [Position.worth, PieceType.base, if_pos rfl, if_neg]
    rintro rfl
    cases hpt
  have hman : ∀ s, Position.worth pt ((L.setUp gamePly).position.man s) =
      if KingOn L.king s then 0 else
        Position.worth pt (if L.man s = .none then none else some (L.man s)) := by
    intro s
    rw [man_eq, board_setUp]
    by_cases hwhite : s.val = L.king .white
    · have hk : KingOn L.king s := Or.inr hwhite
      rw [if_pos hwhite, if_pos hk, if_neg (by decide), hking]
    · by_cases hblack : s.val = L.king .black
      · have hk : KingOn L.king s := Or.inl hblack
        rw [if_neg hwhite, if_pos hblack, if_pos hk, if_neg (by decide), hking]
      · have hk : ¬ KingOn L.king s := fun h => h.elim hblack hwhite
        rw [if_neg hwhite, if_neg hblack, if_neg hk]
  have hboard : (L.setUp gamePly).position.onBoard pt = ∑ s, if KingOn L.king s then 0 else
      Position.worth pt (if L.man s = .none then none else some (L.man s)) :=
    Finset.sum_congr rfl fun s _ => hman s
  have htotal : (L.setUp gamePly).total pt = (L.setUp gamePly).position.onBoard pt +
    ((L.setUp gamePly).hand .black).count pt + ((L.setUp gamePly).hand .white).count pt := rfl
  rw [htotal, hboard, hcount, hcount, Listing.total]

/-- The decoder keeps to the physical set exactly on the streams that list no more men than the set
has. -/
theorem decodesWithinSet_iff : DecodesWithinSet p gamePly ↔
    ∀ L, p.Spells L → ∀ pt, pt.isHandPiece = true → L.total pt ≤ kPhysicalPieceCounts pt := by
  constructor
  · intro h L hL pt hpt
    obtain ⟨hwithin, hcount, -⟩ := h _ (setFromPackedSfen_eq_some.mpr ⟨L, hL, rfl⟩)
    rw [← @total_setUp gamePly L pt hpt fun c => hcount L hL c pt]
    exact hwithin.total_le pt hpt
  · intro h b hb
    -- every listing that the stream spells sets up this board and has room in the hands
    have hroom : ∀ L, p.Spells L → ∀ c pt, pt.isHandPiece = true →
        inHand L.hands c pt < 2 ^ Hand.kWidth pt := by
      intro L hL c pt hpt
      have hle := h L hL pt hpt
      have hlt := lt_two_pow_kWidth hpt
      rw [Listing.total] at hle
      cases c <;> omega
    have hsetUp : ∀ L, p.Spells L → b = L.setUp gamePly := fun L hL =>
      Option.some.inj (hb.symm.trans (setFromPackedSfen_eq_some.mpr ⟨L, hL, rfl⟩))
    obtain ⟨L, hL, -⟩ := setFromPackedSfen_eq_some.mp hb
    have hcount : ∀ L, p.Spells L → ∀ c pt, (b.hand c).count pt = inHand L.hands c pt := by
      intro L hL c pt
      rw [hsetUp L hL]
      exact (hand_setUp hL.1 (hroom L hL) c).2 pt
    have htotal : ∀ pt, pt.isHandPiece = true → b.total pt ≤ kPhysicalPieceCounts pt := by
      intro pt hpt
      have hsum := @total_setUp gamePly L pt hpt fun c => (hand_setUp hL.1 (hroom L hL) c).2 pt
      rw [hsetUp L hL, hsum]
      exact h L hL pt hpt
    refine ⟨⟨htotal, fun c => ?_⟩, hcount, fun hk => ?_⟩
    · rw [hsetUp L hL]
      exact (hand_setUp hL.1 (hroom L hL) c).1
    · exact (isSome_toPackedSfen_iff (fresh_of_setFromPackedSfen hb).consistent).mpr ⟨hk, htotal⟩

/-- Two kings and a hand section of zeros. -/
def pawnFlood : PackedSfen where
  data k := if k.val = 0 then 88#8 else if k.val = 1 then 36#8 else 0#8

/-- The decoder reads 54 pawns there, which leave 22 in the field of the pawns. -/
theorem not_decodesWithinSet_pawnFlood : ¬ DecodesWithinSet pawnFlood 1 := by
  have hpawns : (setFromPackedSfen pawnFlood 1).map (fun b => (b.hand .black).count .pawn) =
      some 22 := by decide +kernel
  intro h
  obtain ⟨b, hb, hcount⟩ := Option.map_eq_some_iff.mp hpawns
  have hle := (h b hb).1.count_le .black (rfl : PieceType.pawn.isHandPiece = true)
  rw [hcount] at hle
  exact absurd hle (by decide)

end Within

end ShogiBoard

end Shogi
