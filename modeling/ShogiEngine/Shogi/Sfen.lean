import ShogiEngine.Shogi.Setup

/-!
# Reading SFEN

`SetFromSfen` on the characters of its argument, and the grammar of the board field.

## Main definitions

- `setFromSfen`: the parser, with the ways in which it yields no board
- `Diagram`: the boards that the board field of a well-formed SFEN draws

## Main results

- `parseBoard_diagram`: the parser puts the men of a diagram on the board
- `exists_of_setFromSfen`: what a well-formed SFEN sets up
-/

namespace Shogi

/-- Why no board comes out: the parser returns `false`, or it runs into undefined behaviour (a
store outside the mailbox, an `int` that overflows). -/
inductive SfenError
  | rejected
  | undefined
  deriving DecidableEq, Repr

/-! ## Characters -/

/-- `std::isspace` in the default locale. -/
def isSpace (ch : Char) : Bool := ch = ' ' || 9 ≤ ch.toNat && ch.toNat ≤ 13

/-- `ss >> token`: the token and what is left. -/
def nextToken (s : List Char) : List Char × List Char :=
  let s := s.dropWhile isSpace
  (s.takeWhile (!isSpace ·), s.dropWhile (!isSpace ·))

/-- The value of a digit. -/
def digitValue (ch : Char) : Nat := ch.toNat - 48

/-- `PieceType::Parse`. -/
def PieceType.parse (ch : Char) : PieceType :=
  if ch = 'P' ∨ ch = 'p' then .pawn
  else if ch = 'L' ∨ ch = 'l' then .lance
  else if ch = 'N' ∨ ch = 'n' then .knight
  else if ch = 'S' ∨ ch = 's' then .silver
  else if ch = 'B' ∨ ch = 'b' then .bishop
  else if ch = 'R' ∨ ch = 'r' then .rook
  else if ch = 'G' ∨ ch = 'g' then .gold
  else if ch = 'K' ∨ ch = 'k' then .king
  else .none

/-- Upper case letters are Black's men. -/
def colorOfLetter (ch : Char) : Color := if 'A' ≤ ch ∧ ch ≤ 'Z' then .black else .white

/-- `Square(File::FromIdx(f), Rank::FromIdx(r))`: the index is a byte, and one beyond the board is
no square. -/
def squareOfInts (f r : Int) : Option Square :=
  let i := ((f % 256 * 9 + r % 256) % 256).toNat
  if h : i < 81 then some ⟨i, h⟩ else none

/-- `std::stoi`, `none` where it throws. -/
def stoi (s : List Char) : Option Int :=
  let negative := s.head? = some '-'
  let digits := (if negative ∨ s.head? = some '+' then s.tail else s).takeWhile Char.isDigit
  let n : Int := digits.foldl (fun n ch => n * 10 + digitValue ch) 0
  let v := if negative then -n else n
  if digits = [] ∨ v < -2147483648 ∨ 2147483647 < v then none else some v

/-- Is a value in the range of `int`? -/
def fitsInt (x : Int) : Bool := -2147483648 ≤ x && x ≤ 2147483647

theorem fitsInt_iff {x : Int} : fitsInt x = true ↔ -2147483648 ≤ x ∧ x ≤ 2147483647 := by
  simp [fitsInt]

namespace ShogiBoard

/-! ## The parser -/

/-- The board loop of `SetFromSfen`, from file `f` and rank `r`. -/
def parseBoard : List Char → Int → Int → Bool → ShogiBoard → Except SfenError ShogiBoard
  | [], _, _, _, b => .ok b
  | ch :: rest, f, r, promoted, b =>
    if ch = '/' then
      if fitsInt (r + 1) then parseBoard rest 8 (r + 1) promoted b else .error .undefined
    else if ch = '+' then parseBoard rest f r true b
    else if '1' ≤ ch ∧ ch ≤ '9' then
      if fitsInt (f - digitValue ch) then parseBoard rest (f - digitValue ch) r promoted b
      else .error .undefined
    else
      let c := colorOfLetter ch
      let pt := PieceType.parse ch
      if !pt.isValid then .error .rejected
      else
        let pt := if promoted then pt.promote else pt
        match squareOfInts f r with
        | none => .error .undefined
        | some s =>
          if fitsInt (f - 1) then parseBoard rest (f - 1) r false (b.putPiece s ⟨c, pt⟩)
          else .error .undefined

/-- The hand loop of `SetFromSfen`. -/
def parseHand : List Char → Nat → ShogiBoard → Except SfenError ShogiBoard
  | [], _, b => .ok b
  | ch :: rest, count, b =>
    if '0' ≤ ch ∧ ch ≤ '9' then
      let count := count * 10 + digitValue ch
      if count < 2147483648 then parseHand rest count b else .error .undefined
    else
      let count := if count = 0 then 1 else count
      let c := colorOfLetter ch
      let pt := PieceType.parse ch
      parseHand rest 0 (b.setHand c ((Hand.add · pt)^[count] (b.hand c)))

/-- The hand field. -/
def parseHands (handStr : List Char) (b : ShogiBoard) : Except SfenError ShogiBoard :=
  if handStr ≠ ['-'] then parseHand handStr 0 b else .ok b

/-- `SetFromSfen` after it has split its argument. -/
def setFromFields (boardStr sideStr handStr plyStr : List Char) : Except SfenError ShogiBoard := do
  let b ← parseBoard boardStr 8 0 false .new
  let b := { b with sideToMove := if sideStr = ['w'] then .white else .black }
  let b ← parseHands handStr b
  let b := { b with ply := if plyStr.isEmpty then 1 else (stoi plyStr).getD 1 }
  .ok b.computeHash.clearHistory

/-- `SetFromSfen`. -/
def setFromSfen (sfen : List Char) : Except SfenError ShogiBoard :=
  let t₁ := nextToken sfen
  let t₂ := nextToken t₁.2
  let t₃ := nextToken t₂.2
  let t₄ := nextToken t₃.2
  setFromFields t₁.1 t₂.1 t₃.1 t₄.1

end ShogiBoard

/-! ## The grammar of the board field -/

/-- `PieceType::ToChar`. -/
def PieceType.toChar : PieceType → Char
  | none => '.'
  | pawn => 'P'
  | lance => 'L'
  | knight => 'N'
  | silver => 'S'
  | bishop => 'B'
  | rook => 'R'
  | gold => 'G'
  | king => 'K'
  | _ => '+'

/-- One entry of a rank: empty squares in a row, or a man. -/
inductive SfenItem
  | gap (n : Nat)
  | man (c : Color) (pt : PieceType)
  deriving DecidableEq, Repr

namespace SfenItem

/-- The squares an entry covers. -/
def width : SfenItem → Nat
  | gap n => n
  | man _ _ => 1

/-- The letter of a man without its promotion mark. -/
def letter (c : Color) (pt : PieceType) : Char :=
  if c = .white then pt.toChar.toLower else pt.toChar

/-- The characters of an entry. -/
def chars : SfenItem → List Char
  | gap n => [Char.ofNat (48 + n)]
  | man c pt => if pt.isPromoted then ['+', letter c pt.unpromote] else [letter c pt]

/-- Gaps of one to nine squares and proper men. -/
def Valid : SfenItem → Prop
  | gap n => 1 ≤ n ∧ n ≤ 9
  | man _ pt => pt.isValid = true

instance (i : SfenItem) : Decidable i.Valid :=
  match i with
  | gap n => inferInstanceAs (Decidable (1 ≤ n ∧ n ≤ 9))
  | man _ pt => inferInstanceAs (Decidable (pt.isValid = true))

/-- The man of an entry. -/
def piece? : SfenItem → Option Piece
  | gap _ => none
  | man c pt => some ⟨c, pt⟩

end SfenItem

/-- What the board field of a well-formed SFEN draws: nine ranks of nine squares with at most one
king for each side. -/
structure Diagram where
  ranks : List (List SfenItem)
  length_ranks : ranks.length = 9
  wide : ∀ l ∈ ranks, (l.map SfenItem.width).sum = 9
  valid : ∀ l ∈ ranks, ∀ i ∈ l, i.Valid
  kings : ((ranks.flatten.filterMap SfenItem.piece?).filter (·.type = .king)).Nodup

/-- The board field. -/
def Diagram.chars (d : Diagram) : List Char :=
  List.intercalate ['/'] (d.ranks.map fun l => l.flatMap SfenItem.chars)

/-- A well-formed SFEN begins with a diagram. Nothing is asked of the other fields. -/
def WellFormedSfen (sfen : List Char) : Prop := ∃ d : Diagram, (nextToken sfen).1 = d.chars

/-- The men of one rank, with `n` files left. -/
def placeRank (r : Nat) : Nat → List SfenItem → List (Square × Piece)
  | _, [] => []
  | n, .gap k :: l => placeRank r (n - k) l
  | n, .man c pt :: l => (.fromIdx ((n - 1) * 9 + r), ⟨c, pt⟩) :: placeRank r (n - 1) l

/-- The men of the ranks from rank `r` on. -/
def placeRanks : Nat → List (List SfenItem) → List (Square × Piece)
  | _, [] => []
  | r, l :: ls => placeRank r 9 l ++ placeRanks (r + 1) ls

/-! ## The parser on a diagram -/

section Diagram

variable {b : ShogiBoard} {n r : Nat} {rest : List Char}

theorem squareOfInts_eq (hn : 1 ≤ n) (hn9 : n ≤ 9) (hr : r < 9) :
    squareOfInts ((n : Int) - 1) r = some (.fromIdx ((n - 1) * 9 + r)) := by
  have hi : ((((n : Int) - 1) % 256 * 9 + (r : Int) % 256) % 256).toNat = (n - 1) * 9 + r := by
    omega
  have hlt : (n - 1) * 9 + r < 81 := by omega
  rw [squareOfInts]
  simp only [hi, dif_pos hlt]
  exact congrArg some (Fin.ext (Nat.mod_eq_of_lt hlt).symm)

theorem parseBoard_slash {f r : Int} {promoted : Bool} (hr : fitsInt (r + 1) = true) :
    ShogiBoard.parseBoard ('/' :: rest) f r promoted b =
      ShogiBoard.parseBoard rest 8 (r + 1) promoted b := by
  rw [ShogiBoard.parseBoard, if_pos rfl, if_pos hr]

theorem parseBoard_plus {f r : Int} {promoted : Bool} :
    ShogiBoard.parseBoard ('+' :: rest) f r promoted b =
      ShogiBoard.parseBoard rest f r true b := rfl

theorem parseBoard_digit {ch : Char} {f r : Int} {promoted : Bool} (hch : '1' ≤ ch ∧ ch ≤ '9')
    (hf : fitsInt (f - digitValue ch) = true) :
    ShogiBoard.parseBoard (ch :: rest) f r promoted b =
      ShogiBoard.parseBoard rest (f - digitValue ch) r promoted b := by
  have hslash : ch ≠ '/' := by
    rintro rfl
    exact absurd hch (by decide)
  have hplus : ch ≠ '+' := by
    rintro rfl
    exact absurd hch (by decide)
  rw [ShogiBoard.parseBoard, if_neg hslash, if_neg hplus, if_pos hch, if_pos hf]

/-- The digit of a gap. -/
theorem gap_spec {k : Nat} (hk : 1 ≤ k ∧ k ≤ 9) :
    ('1' ≤ Char.ofNat (48 + k) ∧ Char.ofNat (48 + k) ≤ '9') ∧
      digitValue (Char.ofNat (48 + k)) = k := by
  obtain ⟨h1, h9⟩ := hk
  interval_cases k <;> decide

theorem parseBoard_gap {k : Nat} {f r : Int} (hk : 1 ≤ k ∧ k ≤ 9)
    (hf : fitsInt (f - k) = true) :
    ShogiBoard.parseBoard ((SfenItem.gap k).chars ++ rest) f r false b =
      ShogiBoard.parseBoard rest (f - k) r false b := by
  obtain ⟨hdigit, hval⟩ := gap_spec hk
  rw [SfenItem.chars, List.singleton_append, parseBoard_digit hdigit (by rw [hval]; exact hf), hval]

/-- The letters of men that are not promoted. -/
theorem letter_spec : ∀ (c : Color) (pt : PieceType), pt.isValid = true → pt.isPromoted = false →
    SfenItem.letter c pt ≠ '/' ∧ SfenItem.letter c pt ≠ '+' ∧
      ¬ ('1' ≤ SfenItem.letter c pt ∧ SfenItem.letter c pt ≤ '9') ∧
      PieceType.parse (SfenItem.letter c pt) = pt ∧
      colorOfLetter (SfenItem.letter c pt) = c := by
  decide

theorem parseBoard_letter {c : Color} {pt : PieceType} {f r : Int} {s : Square} {promoted : Bool}
    (hpt : pt.isValid = true) (hbase : pt.isPromoted = false) (hs : squareOfInts f r = some s)
    (hf : fitsInt (f - 1) = true) :
    ShogiBoard.parseBoard (SfenItem.letter c pt :: rest) f r promoted b =
      ShogiBoard.parseBoard rest (f - 1) r false
        (b.putPiece s ⟨c, if promoted then pt.promote else pt⟩) := by
  obtain ⟨h1, h2, h3, h4, h5⟩ := letter_spec c pt hpt hbase
  rw [ShogiBoard.parseBoard, if_neg h1, if_neg h2, if_neg h3]
  simp only [h4, h5, hpt, hs, hf, Bool.not_true, Bool.false_eq_true, if_false, if_true]

theorem parseBoard_man {c : Color} {pt : PieceType} {f r : Int} {s : Square}
    (hpt : pt.isValid = true) (hs : squareOfInts f r = some s) (hf : fitsInt (f - 1) = true) :
    ShogiBoard.parseBoard ((SfenItem.man c pt).chars ++ rest) f r false b =
      ShogiBoard.parseBoard rest (f - 1) r false (b.putPiece s ⟨c, pt⟩) := by
  have hbase : pt.isPromoted = true → pt.unpromote.isValid = true ∧
      pt.unpromote.isPromoted = false ∧ pt.unpromote.promote = pt := by
    revert hpt
    cases pt <;> decide
  rw [SfenItem.chars]
  by_cases hp : pt.isPromoted = true
  · obtain ⟨h1, h2, h3⟩ := hbase hp
    rw [if_pos hp, List.cons_append, parseBoard_plus, List.cons_append, List.nil_append,
      parseBoard_letter h1 h2 hs hf, if_pos rfl, h3]
  · rw [if_neg hp, List.cons_append, List.nil_append,
      parseBoard_letter hpt (by simpa using hp) hs hf]
    rfl

/-- One rank of a diagram. -/
theorem parseBoard_rank {l : List SfenItem} (hr : r < 9) (hn : n ≤ 9)
    (hwide : (l.map SfenItem.width).sum ≤ n) (hvalid : ∀ i ∈ l, i.Valid) :
    ShogiBoard.parseBoard (l.flatMap SfenItem.chars ++ rest) ((n : Int) - 1) r false b =
      ShogiBoard.parseBoard rest ((n : Int) - 1 - (l.map SfenItem.width).sum) r false
        (b.placeAll (placeRank r n l)) := by
  induction l generalizing n b with
  | nil => simp [placeRank, ShogiBoard.placeAll]
  | cons i l ih =>
    have hi := hvalid i List.mem_cons_self
    have hl : ∀ j ∈ l, j.Valid := fun j hj => hvalid j (List.mem_cons_of_mem _ hj)
    rw [List.flatMap_cons, List.append_assoc]
    cases i with
    | gap k =>
      rw [List.map_cons, List.sum_cons, SfenItem.width] at hwide
      rw [parseBoard_gap hi (fitsInt_iff.mpr ⟨by omega, by omega⟩), show (n : Int) - 1 - k = ((n - k : Nat) : Int) - 1 by omega,
        ih (by omega) (by omega) hl, placeRank, List.map_cons, List.sum_cons, SfenItem.width]
      congr 1
      push_cast
      omega
    | man c pt =>
      rw [List.map_cons, List.sum_cons, SfenItem.width] at hwide
      have hs := squareOfInts_eq (show 1 ≤ n by omega) hn hr
      rw [parseBoard_man hi hs (fitsInt_iff.mpr ⟨by omega, by omega⟩), show (n : Int) - 1 - 1 = ((n - 1 : Nat) : Int) - 1 by omega,
        ih (by omega) (by omega) hl, placeRank, List.map_cons, List.sum_cons, SfenItem.width]
      congr 1
      push_cast
      omega

/-- The ranks of a diagram from rank `r` on. -/
theorem parseBoard_ranks {ls : List (List SfenItem)} (hr : r + ls.length ≤ 9)
    (hwide : ∀ l ∈ ls, (l.map SfenItem.width).sum = 9) (hvalid : ∀ l ∈ ls, ∀ i ∈ l, i.Valid) :
    ShogiBoard.parseBoard (List.intercalate ['/'] (ls.map fun l => l.flatMap SfenItem.chars)) 8 r
      false b = .ok (b.placeAll (placeRanks r ls)) := by
  induction ls generalizing r b with
  | nil => rfl
  | cons l ls ih =>
    have hl := hwide l List.mem_cons_self
    have hrank : ∀ rest, ShogiBoard.parseBoard (l.flatMap SfenItem.chars ++ rest) 8 r false b =
        ShogiBoard.parseBoard rest (-1) r false (b.placeAll (placeRank r 9 l)) := by
      intro rest
      have hr' : r < 9 := by
        rw [List.length_cons] at hr
        omega
      have hrow := @parseBoard_rank b 9 r rest l hr' le_rfl hl.le (hvalid l List.mem_cons_self)
      rw [hl] at hrow
      exact hrow
    have hplace : b.placeAll (placeRanks r (l :: ls)) =
        (b.placeAll (placeRank r 9 l)).placeAll (placeRanks (r + 1) ls) := by
      rw [placeRanks, ShogiBoard.placeAll, List.foldl_append]
      rfl
    rw [hplace]
    cases ls with
    | nil =>
      have := hrank []
      rw [List.append_nil] at this
      rw [List.map_cons, List.map_nil, List.intercalate_singleton, this]
      rfl
    | cons l' ls =>
      rw [List.map_cons, List.map_cons, List.intercalate_cons_cons, List.append_assoc, hrank]
      have hslash : ∀ rest, ShogiBoard.parseBoard (['/'] ++ rest) (-1) r false
          (b.placeAll (placeRank r 9 l)) = ShogiBoard.parseBoard rest 8 ((r + 1 : Nat) : Int) false
            (b.placeAll (placeRank r 9 l)) := fun rest =>
        parseBoard_slash (fitsInt_iff.mpr ⟨by omega, by simp only [List.length_cons] at hr; omega⟩)
      rw [hslash, ← List.map_cons (f := fun l : List SfenItem => l.flatMap SfenItem.chars)]
      exact ih (by simp only [List.length_cons] at hr ⊢; omega)
        (fun x hx => hwide x (List.mem_cons_of_mem _ hx))
        (fun x hx => hvalid x (List.mem_cons_of_mem _ hx))

theorem parseBoard_diagram (d : Diagram) :
    ShogiBoard.parseBoard d.chars 8 0 false b = .ok (b.placeAll (placeRanks 0 d.ranks)) :=
  parseBoard_ranks (by rw [d.length_ranks]) d.wide d.valid

/-! ## The men of a diagram -/

theorem mem_placeRank {l : List SfenItem} {m : Square × Piece} (hr : r < 9) (hn : n ≤ 9)
    (hwide : (l.map SfenItem.width).sum ≤ n) (hvalid : ∀ i ∈ l, i.Valid)
    (hm : m ∈ placeRank r n l) :
    m.1.rank = r ∧ m.1.file < n ∧ m.2.type.isValid = true := by
  induction l generalizing n with
  | nil => cases hm
  | cons i l ih =>
    have hl : ∀ j ∈ l, j.Valid := fun j hj => hvalid j (List.mem_cons_of_mem _ hj)
    cases i with
    | gap k =>
      rw [List.map_cons, List.sum_cons, SfenItem.width] at hwide
      obtain ⟨h1, h2, h3⟩ := ih (by omega) (by omega) hl hm
      exact ⟨h1, by omega, h3⟩
    | man c pt =>
      rw [List.map_cons, List.sum_cons, SfenItem.width] at hwide
      rw [placeRank, List.mem_cons] at hm
      rcases hm with rfl | hm
      · have hi : ((n - 1) * 9 + r) % 81 = (n - 1) * 9 + r := Nat.mod_eq_of_lt (by omega)
        refine ⟨?_, ?_, hvalid _ List.mem_cons_self⟩
        · simp only [Square.rank, Square.fromIdx, hi]
          omega
        · simp only [Square.file, Square.fromIdx, hi]
          omega
      · obtain ⟨h1, h2, h3⟩ := ih (by omega) (by omega) hl hm
        exact ⟨h1, by omega, h3⟩

theorem nodup_placeRank {l : List SfenItem} (hr : r < 9) (hn : n ≤ 9)
    (hwide : (l.map SfenItem.width).sum ≤ n) (hvalid : ∀ i ∈ l, i.Valid) :
    ((placeRank r n l).map Prod.fst).Nodup := by
  induction l generalizing n with
  | nil => exact List.nodup_nil
  | cons i l ih =>
    have hl : ∀ j ∈ l, j.Valid := fun j hj => hvalid j (List.mem_cons_of_mem _ hj)
    cases i with
    | gap k =>
      rw [List.map_cons, List.sum_cons, SfenItem.width] at hwide
      exact ih (by omega) (by omega) hl
    | man c pt =>
      rw [List.map_cons, List.sum_cons, SfenItem.width] at hwide
      rw [placeRank, List.map_cons, List.nodup_cons]
      refine ⟨fun hmem => ?_, ih (by omega) (by omega) hl⟩
      -- the rest of the rank lies on lower files
      obtain ⟨m, hm, he⟩ := List.mem_map.mp hmem
      have hfile := (mem_placeRank hr (show n - 1 ≤ 9 by omega) (by omega) hl hm).2.1
      rw [he] at hfile
      have hi : ((n - 1) * 9 + r) % 81 = (n - 1) * 9 + r := Nat.mod_eq_of_lt (by omega)
      simp only [Square.file, Square.fromIdx, hi] at hfile
      omega

theorem pieces_placeRank {l : List SfenItem} :
    (placeRank r n l).map Prod.snd = l.filterMap SfenItem.piece? := by
  induction l generalizing n with
  | nil => rfl
  | cons i l ih =>
    cases i with
    | gap k => exact ih
    | man c pt =>
      rw [placeRank, List.map_cons, ih]
      rfl

theorem mem_placeRanks {ls : List (List SfenItem)} {m : Square × Piece}
    (hr : r + ls.length ≤ 9) (hwide : ∀ l ∈ ls, (l.map SfenItem.width).sum = 9)
    (hvalid : ∀ l ∈ ls, ∀ i ∈ l, i.Valid) (hm : m ∈ placeRanks r ls) :
    r ≤ m.1.rank ∧ m.2.type.isValid = true := by
  induction ls generalizing r with
  | nil => cases hm
  | cons l ls ih =>
    rw [List.length_cons] at hr
    rw [placeRanks, List.mem_append] at hm
    rcases hm with hm | hm
    · obtain ⟨h1, -, h3⟩ := mem_placeRank (by omega) le_rfl (hwide l List.mem_cons_self).le
        (hvalid l List.mem_cons_self) hm
      exact ⟨h1.ge, h3⟩
    · obtain ⟨h1, h2⟩ := ih (by omega) (fun x hx => hwide x (List.mem_cons_of_mem _ hx))
        (fun x hx => hvalid x (List.mem_cons_of_mem _ hx)) hm
      exact ⟨by omega, h2⟩

theorem nodup_placeRanks {ls : List (List SfenItem)} (hr : r + ls.length ≤ 9)
    (hwide : ∀ l ∈ ls, (l.map SfenItem.width).sum = 9)
    (hvalid : ∀ l ∈ ls, ∀ i ∈ l, i.Valid) : ((placeRanks r ls).map Prod.fst).Nodup := by
  induction ls generalizing r with
  | nil => exact List.nodup_nil
  | cons l ls ih =>
    rw [List.length_cons] at hr
    have hw := (hwide l List.mem_cons_self).le
    have hv := hvalid l List.mem_cons_self
    have hw' : ∀ x ∈ ls, (x.map SfenItem.width).sum = 9 := fun x hx =>
      hwide x (List.mem_cons_of_mem _ hx)
    have hv' : ∀ x ∈ ls, ∀ i ∈ x, i.Valid := fun x hx => hvalid x (List.mem_cons_of_mem _ hx)
    rw [placeRanks, List.map_append]
    refine (nodup_placeRank (by omega) le_rfl hw hv).append (ih (by omega) hw' hv')
      fun s hs hs' => ?_
    obtain ⟨m, hm, rfl⟩ := List.mem_map.mp hs
    obtain ⟨m', hm', he⟩ := List.mem_map.mp hs'
    have h1 := (mem_placeRank (by omega) le_rfl hw hv hm).1
    have h2 := (mem_placeRanks (by omega) hw' hv' hm').1
    rw [he] at h2
    omega

theorem pieces_placeRanks {ls : List (List SfenItem)} :
    (placeRanks r ls).map Prod.snd = ls.flatten.filterMap SfenItem.piece? := by
  induction ls generalizing r with
  | nil => rfl
  | cons l ls ih =>
    rw [placeRanks, List.map_append, pieces_placeRank, ih, List.flatten_cons,
      List.filterMap_append]

/-- The men of a diagram can stand on a board together. -/
theorem placeable_diagram (d : Diagram) :
    ShogiBoard.Placeable .new (placeRanks 0 d.ranks) where
  nodup := nodup_placeRanks (by rw [d.length_ranks]) d.wide d.valid
  empty _ _ := rfl
  valid m hm := (mem_placeRanks (by rw [d.length_ranks]) d.wide d.valid hm).2
  kings := by
    have hpieces : ((placeRanks 0 d.ranks).filter fun m => m.2.type = .king).map Prod.snd =
        ((placeRanks 0 d.ranks).map Prod.snd).filter fun q => q.type = .king := by
      rw [List.filter_map]
      rfl
    have hkings := d.kings
    rw [← pieces_placeRanks (r := 0), ← hpieces] at hkings
    rw [show (fun m : Square × Piece => m.2.color) = Piece.color ∘ Prod.snd from rfl,
      ← List.map_map]
    refine List.Nodup.map_on (fun p hp q hq h => Piece.ext h ?_) hkings
    have hking : ∀ x ∈ ((placeRanks 0 d.ranks).filter fun m => m.2.type = .king).map Prod.snd,
        x.type = .king := by
      intro x hx
      obtain ⟨m, hm, rfl⟩ := List.mem_map.mp hx
      simpa using (List.mem_filter.mp hm).2
    rw [hking p hp, hking q hq]
  noKing _ _ _ := rfl

end Diagram

/-! ## What is set up -/

namespace ShogiBoard

/-- The hand loop changes the hands only. -/
theorem parseHand_eq {l : List Char} {count : Nat} {b c : ShogiBoard}
    (h : parseHand l count b = .ok c) : c = { b with hand := c.hand } := by
  induction l generalizing count b with
  | nil =>
    cases h
    rfl
  | cons ch l ih =>
    rw [parseHand] at h
    split at h
    · dsimp only at h
      split at h
      · exact ih h
      · cases h
    · exact (ih h).trans rfl

/-- A board fresh from a set-up: nothing remembered, and the hash from scratch. -/
structure Fresh (b : ShogiBoard) : Prop where
  consistent : b.Consistent
  hash : b.hash = b.scratchHash
  history : b.history = []
  continuousCheck : ∀ c, b.continuousCheck c = 0

theorem fresh_of_setFromFields (d : Diagram) {sideStr handStr plyStr : List Char}
    {b : ShogiBoard} (h : setFromFields d.chars sideStr handStr plyStr = .ok b) : b.Fresh := by
  set c : ShogiBoard := { new.placeAll (placeRanks 0 d.ranks) with
    sideToMove := if sideStr = ['w'] then .white else .black } with hc
  have hcons : c.Consistent := (consistent_placeAll consistent_new (placeable_diagram d)).congr
    rfl rfl rfl rfl
  have hfield : setFromFields d.chars sideStr handStr plyStr =
      parseHands handStr c >>= fun b =>
        .ok ({ b with ply := if plyStr.isEmpty then 1 else (stoi plyStr).getD 1 } :
          ShogiBoard).computeHash.clearHistory := by
    rw [setFromFields, parseBoard_diagram]
    rfl
  rw [hfield] at h
  cases hhand : parseHands handStr c with
  | error e =>
    rw [hhand] at h
    cases h
  | ok c' =>
    have hmen : c' = { c with hand := c'.hand } := by
      rw [parseHands] at hhand
      split at hhand
      · exact parseHand_eq hhand
      · cases hhand
        rfl
    have hcons' : c'.Consistent := by
      rw [hmen]
      exact hcons.congr rfl rfl rfl rfl
    rw [hhand] at h
    cases h
    exact ⟨hcons'.congr rfl rfl rfl rfl, rfl, rfl, fun _ => rfl⟩

/-- Whatever a well-formed SFEN sets up is fresh. -/
theorem fresh_of_setFromSfen {sfen : List Char} {b : ShogiBoard} (hs : WellFormedSfen sfen)
    (h : setFromSfen sfen = .ok b) : b.Fresh := by
  obtain ⟨d, hd⟩ := hs
  rw [setFromSfen, hd] at h
  exact fresh_of_setFromFields d h

end ShogiBoard

end Shogi
