import ShogiEngine.Book.YbbFormat
import ShogiEngine.Datagen.SelfPlayLabels
import ShogiEngine.Shogi.Repetition
import ShogiEngine.Shogi.SfenWriter

/-!
# The position command

Moves as texts, `Split` and `CmdPosition` of `usi/usi_engine.cc`.

## Main definitions

- `Move.toChars`, `Move.parse`: the texts of moves
- `split`: the words of a line
- `cmdPosition`: the source's function
- `Written`: a line with given words

## Main results

- `parse_toChars`: a move comes back from its text
- `split_eq_iff`: the words of a line
- `cmdPosition_written`: the engine stands where the moves of the command lead
-/

namespace Shogi

open Datagen

/-! ## Texts of moves -/

/-- `Square::ToString`. -/
def Square.toChars (s : Square) : List Char :=
  [Char.ofNat ('1'.toNat + s.file), Char.ofNat ('a'.toNat + s.rank)]

/-- `File::Parse` and `Rank::Parse`: the distance from the first letter, as a byte. -/
def byteAfter (first ch : Char) : BitVec 8 := BitVec.ofInt 8 (ch.toNat - first.toNat)

/-- `Square::Parse`; the index is a byte. -/
def Square.parse (file rank : Char) : BitVec 8 :=
  BitVec.ofNat 8 ((byteAfter '1' file).toNat * 9 + (byteAfter 'a' rank).toNat)

namespace Move

/-- `Move::ToString`. -/
def toChars (m : Move) : List Char :=
  if m.raw = 0#16 then ['0', '0', '0', '0']
  else
    match m with
    | .drop pt t => [pt.toChar, '*'] ++ t.toChars
    | .normal s t => s.toChars ++ t.toChars
    | .promotion s t => s.toChars ++ t.toChars ++ ['+']

/-- `Move::Parse`: the word of a move, 0 for a text that is too short. Whether there are such a man and such squares
is not looked at. -/
def parse : List Char → BitVec 16
  | c₀ :: c₁ :: c₂ :: c₃ :: rest =>
    let dst := (Square.parse c₂ c₃).setWidth 16
    if c₁ = '*' then dst ||| (BitVec.ofNat 16 (PieceType.parse c₀).idx <<< 7) ||| kDropFlag
    else
      let src := (Square.parse c₀ c₁).setWidth 16
      if rest.head? = some '+' then dst ||| (src <<< 7) ||| kPromoteFlag else dst ||| (src <<< 7)
  | _ => 0#16

end Move

section MoveTexts

theorem parse_square : ∀ s : Square, ∃ file rank, s.toChars = [file, rank] ∧ rank ≠ '*' ∧
    (Square.parse file rank).setWidth 16 = BitVec.ofNat 16 s.val := by
  intro s
  refine ⟨Char.ofNat ('1'.toNat + s.file), Char.ofNat ('a'.toNat + s.rank), rfl, ?_, ?_⟩
  · revert s
    decide
  · revert s
    decide +kernel

theorem parse_toChar : ∀ pt : PieceType, pt.isHandPiece = true → PieceType.parse pt.toChar = pt := by
  decide

/-- A move other than the null move comes back from its text. -/
theorem parse_toChars {m : Move} (hnull : m.raw ≠ 0#16) (hdrop : ∀ pt t, m = .drop pt t → pt.isHandPiece = true) :
    Move.parse m.toChars = m.raw := by
  rw [Move.toChars.eq_def, if_neg hnull]
  cases m with
  | normal s t =>
    obtain ⟨f, r, hs, hr, hsrc⟩ := parse_square s
    obtain ⟨f', r', ht, -, hdst⟩ := parse_square t
    simp only [hs, ht, List.cons_append, List.nil_append, Move.parse, if_neg hr, List.head?_nil, reduceCtorEq, if_false]
    rw [hsrc, hdst]
    rfl
  | promotion s t =>
    obtain ⟨f, r, hs, hr, hsrc⟩ := parse_square s
    obtain ⟨f', r', ht, -, hdst⟩ := parse_square t
    simp only [hs, ht, List.cons_append, List.nil_append, Move.parse, if_neg hr, List.head?_cons, if_true]
    rw [hsrc, hdst]
    rfl
  | drop pt t =>
    obtain ⟨f', r', ht, -, hdst⟩ := parse_square t
    simp only [ht, List.cons_append, List.nil_append, Move.parse, if_true]
    rw [hdst, parse_toChar pt (hdrop pt t rfl)]
    rfl

end MoveTexts

/-! ## The words of a line -/

theorem length_nextToken {s : List Char} (h : (nextToken s).1 ≠ []) : (nextToken s).2.length < s.length := by
  have hsplit := List.takeWhile_append_dropWhile (p := (!isSpace ·)) (l := s.dropWhile isSpace)
  have hlength := congrArg List.length hsplit
  rw [List.length_append] at hlength
  have hpos := List.length_pos_of_ne_nil h
  have hle := (List.dropWhile_suffix isSpace (l := s)).length_le
  rw [nextToken] at hpos ⊢
  dsimp only at hpos ⊢
  omega

/-- `Split`. -/
def split (s : List Char) : List (List Char) :=
  if _ : (nextToken s).1 = [] then [] else (nextToken s).1 :: split (nextToken s).2
termination_by s.length
decreasing_by exact length_nextToken ‹_›

/-- A line with the words `words` and any white space around them. -/
inductive Written : List (List Char) → List Char → Prop
  | nil {gap : List Char} (blank : ∀ ch ∈ gap, isSpace ch = true) : Written [] gap
  | cons {gap word rest : List Char} {words : List (List Char)} (blank : ∀ ch ∈ gap, isSpace ch = true)
      (word_ne : word ≠ []) (solid : ∀ ch ∈ word, isSpace ch = false)
      (apart : ∀ ch ∈ rest.head?, isSpace ch = true) (written : Written words rest) :
      Written (word :: words) (gap ++ (word ++ rest))

section Words

variable {gap s : List Char} {words : List (List Char)}

theorem nextToken_gap (h : ∀ ch ∈ gap, isSpace ch = true) : nextToken (gap ++ s) = nextToken s := by
  rw [nextToken, nextToken, List.dropWhile_append_of_pos h]

theorem split_of_written (h : Written words s) : split s = words := by
  induction h with
  | nil blank =>
    have hnil := nextToken_gap (s := []) blank
    rw [List.append_nil] at hnil
    rw [split, hnil]
    rfl
  | cons blank word_ne solid apart _ ih =>
    have htoken := (nextToken_gap blank).trans (nextToken_append word_ne solid apart)
    rw [split, htoken, dif_neg word_ne, ih]

theorem written_split (s : List Char) : Written (split s) s := by
  have hgap : ∀ ch ∈ s.takeWhile isSpace, isSpace ch = true := fun ch hch => List.mem_takeWhile_imp hch
  have hs : s.takeWhile isSpace ++ ((nextToken s).1 ++ (nextToken s).2) = s := by
    rw [nextToken, List.takeWhile_append_dropWhile, List.takeWhile_append_dropWhile]
  rw [split]
  split_ifs with hnil
  · have hdrop : s.dropWhile isSpace = [] := by
      cases hdrop : s.dropWhile isSpace with
      | nil => rfl
      | cons ch rest =>
        -- a character that is no space begins a word
        have hhead := List.head?_dropWhile_not isSpace s
        rw [hdrop] at hhead
        rw [nextToken, hdrop, List.takeWhile_cons_of_pos (by simpa using hhead)] at hnil
        cases hnil
    rw [nextToken, hdrop] at hs
    rw [List.takeWhile_nil, List.dropWhile_nil, List.append_nil, List.append_nil] at hs
    rw [← hs]
    exact .nil (hs ▸ hgap)
  · have hsolid : ∀ ch ∈ (nextToken s).1, isSpace ch = false := by
      intro ch hch
      simpa using List.mem_takeWhile_imp hch
    have happart : ∀ ch ∈ (nextToken s).2.head?, isSpace ch = true := by
      intro ch hch
      have hhead := List.head?_dropWhile_not (!isSpace ·) (s.dropWhile isSpace)
      rw [nextToken, Option.mem_def] at hch
      rw [hch] at hhead
      simpa using hhead
    have hwritten := Written.cons hgap hnil hsolid happart (written_split (nextToken s).2)
    rwa [hs] at hwritten
termination_by s.length
decreasing_by exact length_nextToken ‹_›

/-- The words of a line. -/
theorem split_eq_iff : split s = words ↔ Written words s :=
  ⟨fun h => h ▸ written_split s, split_of_written⟩

end Words

/-! ## The command -/

/-- `board_`, `position_start_key_` and `position_moves_`. -/
structure GamePosition where
  board : ShogiBoard
  positionStartKey : BitVec 64
  positionMoves : List (BitVec 16)

/-- `startpos`. -/
def startposWord : List Char := ['s', 't', 'a', 'r', 't', 'p', 'o', 's']

/-- `sfen`. -/
def sfenWord : List Char := ['s', 'f', 'e', 'n']

/-- `moves`. -/
def movesWord : List Char := ['m', 'o', 'v', 'e', 's']

/-- The loop over the words of the SFEN. -/
def joinWords (words : List (List Char)) : List Char :=
  words.foldl (fun sfen word => (if sfen.isEmpty then sfen else sfen ++ [' ']) ++ word) []

/-- The loop over the moves. -/
def playTexts (b : ShogiBoard) (texts : List (List Char)) : ShogiBoard :=
  texts.foldl (fun b text => b.doMove (.fromRaw (Move.parse text))) b

/-- The board and the words behind it. -/
def startBoard (first : List Char) (rest : List (List Char)) : Except SfenError (ShogiBoard × List (List Char)) :=
  if first = startposWord then (ShogiBoard.setFromSfen kStartingSfen).map fun b => (b, rest)
  else if first = sfenWord then
    (ShogiBoard.setFromSfen (joinWords (rest.takeWhile (· ≠ movesWord)))).map fun b =>
      (b, rest.dropWhile (· ≠ movesWord))
  else .ok (.new, first :: rest)

/-- `CmdPosition`. -/
def cmdPosition (old : GamePosition) (parts : List (List Char)) : Except SfenError GamePosition :=
  match parts.drop 1 with
  | [] => .ok { old with board := .new }
  | first :: rest => (startBoard first rest).map fun start =>
    let texts := if start.2.head? = some movesWord then start.2.tail else []
    ⟨playTexts start.1 texts, start.1.hash, texts.map Move.parse⟩

/-! ### The words of an SFEN -/

namespace ShogiBoard

section Fields

variable {b : ShogiBoard}

/-- The fields that `ToSfen` writes. -/
def sfenFields (b : ShogiBoard) : List (List Char) :=
  [b.boardChars, [if b.sideToMove = .black then 'b' else 'w'],
    if b.handChars.isEmpty then ['-'] else b.handChars, decimal b.ply]

theorem joinWords_sfenFields : joinWords b.sfenFields = b.toSfen := by
  have hne := b.boardChars_ne_nil
  simp [joinWords, sfenFields, toSfen, hne]

theorem mem_decimal {n : Int} {ch : Char} (h : ch ∈ decimal n) : ch = '-' ∨ ch.isDigit = true := by
  have hdigits : ∀ ch ∈ Nat.toDigits 10 n.natAbs, ch.isDigit = true := fun ch hch =>
    Nat.isDigit_of_mem_toDigits (by decide) le_rfl hch
  rw [decimal] at h
  split at h
  · exact (List.mem_cons.mp h).imp_right (hdigits ch)
  · exact Or.inr (hdigits ch h)

/-- No field is the word before the moves. -/
theorem not_moves_of_mem_sfenFields : ∀ word ∈ b.sfenFields, word ≠ movesWord := by
  intro word hword he
  subst he
  rw [sfenFields, List.mem_cons, List.mem_cons, List.mem_cons, List.mem_singleton] at hword
  rcases hword with h | h | h | h
  · have hslash : '/' ∈ b.boardChars := List.mem_flatMap.mpr ⟨1, by decide, List.mem_append_left _ (by decide)⟩
    rw [← h] at hslash
    exact absurd hslash (by decide)
  · exact Nat.noConfusion (Nat.succ.inj (congrArg List.length h))
  · split_ifs at h
    · exact Nat.noConfusion (Nat.succ.inj (congrArg List.length h))
    · have hm : 'm' ∈ b.handChars := h ▸ by decide
      obtain ⟨hdigit | hletter, -, -⟩ := of_mem_handChars hm
      · exact absurd hdigit (by decide)
      · exact absurd hletter (by decide)
  · have hm : 'm' ∈ decimal b.ply := h ▸ by decide
    obtain hminus | hdigit := mem_decimal hm
    · exact absurd hminus (by decide)
    · exact absurd hdigit (by decide)

end Fields

/-! ### Two boards with one position -/

section Same

variable {b c : ShogiBoard} {m : Move} {ms : List Move}

theorem SamePosition.position_eq (h : b.SamePosition c) : b.position = c.position := by
  obtain ⟨hboard, hturn, hhand⟩ := h
  rw [position, position, hboard, hturn, hhand]

theorem SamePosition.canPlay (h : b.SamePosition c) (hm : b.CanPlay m) : c.CanPlay m := by
  obtain ⟨hboard, hturn, -⟩ := h
  cases m with
  | drop pt t => exact ⟨hboard ▸ hm.1, hm.2⟩
  | normal s t =>
    exact ⟨hm.ne, hboard ▸ hm.src, hboard ▸ hturn ▸ hm.own, hboard ▸ hturn ▸ hm.dst, fun h => hboard ▸ hm.able h⟩
  | promotion s t =>
    exact ⟨hm.ne, hboard ▸ hm.src, hboard ▸ hturn ▸ hm.own, hboard ▸ hturn ▸ hm.dst, fun h => hboard ▸ hm.able h⟩

/-- A move leads from one position to one position. -/
theorem SamePosition.doMove (h : b.SamePosition c) (hm : b.CanPlay m) : (b.doMove m).SamePosition (c.doMove m) := by
  obtain ⟨hboard, hturn, hhand⟩ := h
  have hmoved : ∀ s promotion, b.movedPiece s promotion = c.movedPiece s promotion := by
    intro s promotion
    rw [movedPiece, movedPiece, hboard]
  have hcapture : ∀ t, (b.doCapture true t).hand = (c.doCapture true t).hand := by
    intro t
    rw [hand_doCapture, hand_doCapture, hboard, hturn, hhand]
  refine ⟨?_, ?_, ?_⟩
  · rw [ShogiBoard.doMove, ShogiBoard.doMove, board_doMoveInternal, board_doMoveInternal]
    cases m with
    | drop pt t =>
      change Function.update b.board t ⟨b.sideToMove, pt⟩ = Function.update c.board t ⟨c.sideToMove, pt⟩
      rw [hboard, hturn]
    | normal s t =>
      change (b.doBoardMove true s t false).board = (c.doBoardMove true s t false).board
      rw [board_doBoardMove _ _ _ hm.ne, board_doBoardMove _ _ _ hm.ne, hboard, hmoved]
    | promotion s t =>
      change (b.doBoardMove true s t true).board = (c.doBoardMove true s t true).board
      rw [board_doBoardMove _ _ _ hm.ne, board_doBoardMove _ _ _ hm.ne, hboard, hmoved]
  · rw [sideToMove_doMove, sideToMove_doMove, hturn]
  · rw [ShogiBoard.doMove, ShogiBoard.doMove, hand_doMoveInternal, hand_doMoveInternal]
    cases m with
    | drop pt t =>
      change Function.update b.hand b.sideToMove ((b.hand b.sideToMove).sub pt) =
        Function.update c.hand c.sideToMove ((c.hand c.sideToMove).sub pt)
      rw [hhand, hturn]
    | normal s t => exact hcapture t
    | promotion s t => exact hcapture t

/-- Legal moves, one after the other. -/
def LegalLine : ShogiBoard → List Move → Prop
  | _, [] => True
  | b, m :: ms => m ∈ b.generateLegalMoves ∧ LegalLine (b.doMove m) ms

/-- The board `c` holds the position of `b`, with its number of plies and its own hash. -/
structure StandsFor (b c : ShogiBoard) : Prop where
  playable : b.Playable
  playable' : c.Playable
  same : b.SamePosition c
  ply : c.ply = b.ply
  hash : c.hash = b.scratchHash

theorem StandsFor.legal_iff (h : StandsFor b c) : m ∈ c.generateLegalMoves ↔ m ∈ b.generateLegalMoves := by
  rw [h.playable.legal_iff, h.playable'.legal_iff, h.same.position_eq]

theorem StandsFor.toSfen (h : StandsFor b c) : c.toSfen = b.toSfen :=
  toSfen_congr h.same.1.symm (fun _ _ => by rw [h.same.2.2]) h.same.2.1.symm h.ply

theorem StandsFor.doMove (h : StandsFor b c) (hm : m ∈ b.generateLegalMoves) :
    StandsFor (b.doMove m) (c.doMove m) := by
  have hsame := h.same.doMove (h.playable.canPlay hm)
  have hm' := h.legal_iff.mpr hm
  refine ⟨h.playable.doMoveInternal hm, h.playable'.doMoveInternal hm', hsame, ?_, ?_⟩
  · rw [ShogiBoard.doMove, ShogiBoard.doMove, ply_doMoveInternal, ply_doMoveInternal, h.ply]
  · have hhash : c.hash = c.scratchHash := h.hash.trans (scratchHash_congr h.same)
    have hafter : (c.doMove m).hash = (c.doMove m).scratchHash :=
      hash_of_line (c := c.doMove m) h.playable'.consistent.toAgree hhash (.act .start (h.playable'.canPlay hm'))
    rw [hafter, scratchHash_congr hsame]

theorem StandsFor.foldl (h : StandsFor b c) (hms : LegalLine b ms) :
    StandsFor (ms.foldl ShogiBoard.doMove b) (ms.foldl ShogiBoard.doMove c) := by
  induction ms generalizing b c with
  | nil => exact h
  | cons m ms ih => exact ih (h.doMove hms.1) hms.2

theorem StandsFor.legalLine (h : StandsFor b c) (hms : LegalLine b ms) : LegalLine c ms := by
  induction ms generalizing b c with
  | nil => trivial
  | cons m ms ih => exact ⟨h.legal_iff.mpr hms.1, ih (h.doMove hms.1) hms.2⟩

/-- A legal move has a text that it comes back from. -/
theorem Playable.parse_toChars (hb : b.Playable) (hm : m ∈ b.generateLegalMoves) : Move.parse m.toChars = m.raw := by
  have hplay := hb.canPlay hm
  refine Shogi.parse_toChars (fun hnull => ?_) fun pt t h => ?_
  · have hm0 : m = .fromRaw 0#16 := by rw [← hnull, Move.fromRaw_raw]
    have hzero : Move.fromRaw 0#16 = .normal (.fromIdx 0) (.fromIdx 0) := rfl
    rw [hm0, hzero] at hplay
    exact hplay.ne rfl
  · subst h
    exact hplay.2

/-- The loop over the moves plays them. -/
theorem Playable.playTexts (hb : b.Playable) (hms : LegalLine b ms) :
    playTexts b (ms.map Move.toChars) = ms.foldl ShogiBoard.doMove b ∧
      (ms.map Move.toChars).map Move.parse = ms.map Move.raw := by
  induction ms generalizing b with
  | nil => exact ⟨rfl, rfl⟩
  | cons m ms ih =>
    have htext := hb.parse_toChars hms.1
    obtain ⟨hboard, hmoves⟩ := ih (hb.doMoveInternal hms.1) hms.2
    refine ⟨?_, ?_⟩
    · rw [List.map_cons, Shogi.playTexts, List.foldl_cons, htext, Move.fromRaw_raw]
      exact hboard
    · rw [List.map_cons, List.map_cons, List.map_cons, htext, hmoves]

/-- The board that `SetFromSfen` makes of the fields. -/
theorem exists_standsFor (hb : b.Playable) (hclean : ∀ c, (b.hand c).Clean) (hply : 0 ≤ b.ply)
    (hint : b.ply ≤ 2147483647) : ∃ c, setFromSfen b.toSfen = .ok c ∧ c.Fresh ∧ StandsFor b c := by
  obtain ⟨c, hok, hfresh, hboard, hcount, hclean', hturn, hplyStr⟩ :=
    exists_setFromSfen_toSfen hb.consistent.toAgree
  have hhand : b.hand = c.hand := by
    funext x
    exact hand_eq_of_count (hclean x) (hclean' x) fun pt => (hcount x pt).symm
  have hsame : b.SamePosition c := ⟨hboard.symm, hturn.symm, hhand⟩
  have hkings : c.HasKings := fun x => by
    obtain ⟨k, hk⟩ := Option.isSome_iff_exists.mp (hb.kings x)
    have hman := hb.consistent.king_board x k hk
    rw [← hboard] at hman
    rw [hfresh.consistent.king_sq x k hman]
    rfl
  have hsafe : c.inCheck (~~~c.sideToMove) = false := by
    rw [← Bool.not_eq_true, hfresh.consistent.inCheck_iff hkings, ← hsame.position_eq, hturn]
    exact hb.not_inCheck
  refine ⟨c, hok, hfresh, hb, ⟨hfresh.consistent, hkings, hsafe⟩, hsame, ?_, ?_⟩
  · obtain ⟨n, hn⟩ := Int.eq_ofNat_of_zero_le hply
    rw [hplyStr, hn, stoi_decimal (by omega)]
    rfl
  · rw [hfresh.hash, scratchHash_congr hsame]

end Same

end ShogiBoard

/-! ## What the engine makes of the command -/

section Command

open ShogiBoard

variable {b : ShogiBoard} {ms : List Move} {old : GamePosition} {command line : List Char}

theorem playTexts_tail (hb : b.Playable) (hms : LegalLine b ms) {tail : List (List Char)}
    (htail : tail = movesWord :: ms.map Move.toChars ∨ tail = [] ∧ ms = []) :
    let texts := if tail.head? = some movesWord then tail.tail else []
    playTexts b texts = ms.foldl ShogiBoard.doMove b ∧ texts.map Move.parse = ms.map Move.raw := by
  obtain rfl | ⟨rfl, rfl⟩ := htail
  · exact hb.playTexts hms
  · exact ⟨rfl, rfl⟩

/-- The words for a board: the start position by its name, any other by the fields of its SFEN. -/
inductive Names (b : ShogiBoard) : List Char → List (List Char) → Prop
  | startpos (start : setFromSfen kStartingSfen = .ok b) : Names b startposWord []
  | sfen (clean : ∀ c, (b.hand c).Clean) (ply_nonneg : 0 ≤ b.ply) (ply_le : b.ply ≤ 2147483647) :
      Names b sfenWord b.sfenFields

theorem startBoard_of_names {first : List Char} {rest tail : List (List Char)} (hb : b.Playable)
    (hnames : Names b first rest) (htail : ∀ word ∈ tail.head?, word = movesWord) :
    ∃ c, startBoard first (rest ++ tail) = .ok (c, tail) ∧ c.Fresh ∧ StandsFor b c := by
  cases hnames with
  | startpos start =>
    have hfresh := fresh_of_setFromSfen wellFormed_kStartingSfen start
    refine ⟨b, ?_, hfresh, hb, hb, ⟨rfl, rfl, rfl⟩, rfl, hfresh.hash⟩
    rw [startBoard, if_pos rfl, start]
    rfl
  | sfen hclean hply hint =>
    obtain ⟨c, hok, hfresh, hstands⟩ := exists_standsFor hb hclean hply hint
    have hfields : ∀ word ∈ b.sfenFields, decide (word ≠ movesWord) = true := fun word hword =>
      decide_eq_true (not_moves_of_mem_sfenFields word hword)
    have hsplit : (b.sfenFields ++ tail).takeWhile (· ≠ movesWord) = b.sfenFields ∧
        (b.sfenFields ++ tail).dropWhile (· ≠ movesWord) = tail := by
      rw [List.takeWhile_append_of_pos hfields, List.dropWhile_append_of_pos hfields]
      cases tail with
      | nil => exact ⟨List.append_nil _, rfl⟩
      | cons word words =>
        rw [htail word rfl, List.takeWhile_cons_of_neg (by simp), List.dropWhile_cons_of_neg (by simp)]
        exact ⟨List.append_nil _, rfl⟩
    refine ⟨c, ?_, hfresh, hstands⟩
    rw [startBoard, if_neg (by decide), if_pos rfl, hsplit.1, hsplit.2, joinWords_sfenFields, hok]
    rfl

theorem length_history_foldl : (ms.foldl ShogiBoard.doMove b).history.length = b.history.length + ms.length := by
  induction ms generalizing b with
  | nil => rfl
  | cons m ms ih =>
    rw [List.foldl_cons, ih, ShogiBoard.doMove, history_doMoveInternal, List.length_cons]
    change (b.history ++ [_]).length + ms.length = _
    rw [List.length_append, List.length_singleton]
    omega

/-- A line with the words for a board and legal moves from it puts the engine into the position after the moves, with
the moves and the key of the board behind it: it has the same legal moves, and `ToSfen` writes the same. Without
moves the word before them may be left out. -/
theorem cmdPosition_written {first : List Char} {rest tail : List (List Char)} (hb : b.Playable)
    (hnames : Names b first rest) (hms : LegalLine b ms)
    (htail : tail = movesWord :: ms.map Move.toChars ∨ tail = [] ∧ ms = [])
    (hline : Written (command :: first :: (rest ++ tail)) line) :
    ∃ s, cmdPosition old (split line) = .ok s ∧ StandsFor (ms.foldl ShogiBoard.doMove b) s.board ∧
      (∀ m, m ∈ s.board.generateLegalMoves ↔ m ∈ (ms.foldl ShogiBoard.doMove b).generateLegalMoves) ∧
      s.board.toSfen = (ms.foldl ShogiBoard.doMove b).toSfen ∧ s.board.history.length = ms.length ∧
      s.positionStartKey = b.scratchHash ∧ s.positionMoves = ms.map Move.raw := by
  have hhead : ∀ word ∈ tail.head?, word = movesWord := by
    intro word hword
    obtain rfl | ⟨rfl, -⟩ := htail
    · exact (Option.some.inj hword).symm
    · cases hword
  obtain ⟨c, hstart, hfresh, hstands⟩ := startBoard_of_names hb hnames hhead
  obtain ⟨hboard, hmoves⟩ := playTexts_tail hstands.playable' (hstands.legalLine hms) htail
  have hafter := hstands.foldl hms
  have hlength : (ms.foldl ShogiBoard.doMove c).history.length = c.history.length + ms.length := length_history_foldl
  rw [hfresh.history, List.length_nil, Nat.zero_add] at hlength
  rw [← hboard] at hafter hlength
  refine ⟨⟨playTexts c (if tail.head? = some movesWord then tail.tail else []), c.hash,
    (if tail.head? = some movesWord then tail.tail else []).map Move.parse⟩, ?_, hafter, fun m => hafter.legal_iff,
    hafter.toSfen, hlength, hstands.hash, hmoves⟩
  rw [split_of_written hline]
  change (startBoard first (rest ++ tail)).map _ = _
  rw [hstart]
  rfl

/-! ### The first move of a game -/

/-- A line with a space before each word. -/
theorem written_spaced {words : List (List Char)} (h : ∀ word ∈ words, word ≠ [] ∧ ∀ ch ∈ word, isSpace ch = false) :
    Written words (words.flatMap fun word => ' ' :: word) := by
  induction words with
  | nil => exact .nil fun ch hch => by cases hch
  | cons word words ih =>
    obtain ⟨hne, hsolid⟩ := h word List.mem_cons_self
    have hrest := ih fun w hw => h w (List.mem_cons_of_mem _ hw)
    refine @Written.cons [' '] word _ words (by simp [isSpace]) hne hsolid ?_ hrest
    intro ch hch
    cases words with
    | nil => cases hch
    | cons w ws =>
      obtain rfl : ' ' = ch := Option.some.inj hch
      rfl

/-- Black's pawn in front of the bishop steps forward: `7g7f`. -/
def firstMove : Move := .normal (.fromIdx 60) (.fromIdx 59)

/-- ` position startpos moves 7g7f`. -/
def firstLine : List Char :=
  [['p', 'o', 's', 'i', 't', 'i', 'o', 'n'], startposWord, movesWord, ['7', 'g', '7', 'f']].flatMap fun word =>
    ' ' :: word

theorem cmdPosition_firstLine : ∃ b s, setFromSfen kStartingSfen = .ok b ∧
    cmdPosition ⟨.new, 0, []⟩ (split firstLine) = .ok s ∧ StandsFor (b.doMove firstMove) s.board ∧
      s.positionMoves = [firstMove.raw] := by
  have hstart : setFromSfen kStartingSfen = .ok ((setFromSfen kStartingSfen).toOption.getD .new) := rfl
  have hms : LegalLine ((setFromSfen kStartingSfen).toOption.getD .new) [firstMove] :=
    ⟨show firstMove ∈ ShogiBoard.generateLegalMoves _ by decide +kernel, trivial⟩
  have hline : Written (['p', 'o', 's', 'i', 't', 'i', 'o', 'n'] :: startposWord ::
      ([] ++ movesWord :: [firstMove].map Move.toChars)) firstLine := by
    have htext : firstMove.toChars = ['7', 'g', '7', 'f'] := by decide +kernel
    rw [List.map_singleton, htext]
    exact written_spaced (by simp [startposWord, movesWord, isSpace])
  obtain ⟨s, hok, hstands, -, -, -, -, hmoves⟩ :=
    @cmdPosition_written _ _ ⟨.new, 0, []⟩ _ _ _ _ _ (playable_startPos hstart) (.startpos hstart) hms (Or.inl rfl)
      hline
  exact ⟨_, s, hstart, hok, hstands, hmoves⟩

end Command

end Shogi
