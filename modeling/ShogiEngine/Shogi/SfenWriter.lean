import ShogiEngine.Shogi.PackedRoundTrip
import ShogiEngine.Shogi.SfenSafety

/-!
# Writing SFEN

`ToSfen`, and what `SetFromSfen` makes of the strings that it writes.

## Main definitions

- `toSfen`: the source's function
- `rankItems`, `rankMen`: the entries and the men of a rank

## Main results

- `exists_diagram`: the board field is the one of a diagram with the men of the board
- `exists_setFromSfen_toSfen`: the parser accepts the string
- `setFromSfen_toSfen`: the board comes back, and so does the string
-/

namespace Shogi

/-- `std::to_string`. -/
def decimal (n : Int) : List Char :=
  if n < 0 then '-' :: Nat.toDigits 10 n.natAbs else Nat.toDigits 10 n.natAbs

namespace ShogiBoard

/-- The inner board loop of `ToSfen`, with `n` files left and `empty` squares counted. -/
def rankChars (b : ShogiBoard) (r : Nat) : Nat → Nat → List Char
  | 0, empty => if 0 < empty then decimal empty else []
  | n + 1, empty =>
    let pc := b.board (.fromIdx (n * 9 + r))
    if pc.isNone then rankChars b r n (empty + 1)
    else (if 0 < empty then decimal empty else []) ++
      ((SfenItem.man pc.color pc.type).chars ++ rankChars b r n 0)

/-- The board loop. -/
def boardChars (b : ShogiBoard) : List Char :=
  (List.range 9).flatMap fun r => (if 0 < r then ['/'] else []) ++ b.rankChars r 9 0

/-- The order of the men in hand. -/
def sfenHandOrder : List PieceType := [.rook, .bishop, .gold, .silver, .knight, .lance, .pawn]

/-- The men of one type in one hand. -/
def handEntry (b : ShogiBoard) (c : Color) (pt : PieceType) : List Char :=
  let cnt := (b.hand c).count pt
  if cnt = 0 then []
  else (if 1 < cnt then decimal cnt else []) ++ [SfenItem.letter c pt]

/-- `hand_str`. -/
def handChars (b : ShogiBoard) : List Char :=
  [Color.black, .white].flatMap fun c => sfenHandOrder.flatMap (b.handEntry c)

/-- `ToSfen`. -/
def toSfen (b : ShogiBoard) : List Char :=
  b.boardChars ++ (' ' :: (if b.sideToMove = .black then 'b' else 'w') :: ' ' ::
    ((if b.handChars.isEmpty then ['-'] else b.handChars) ++ ' ' :: decimal b.ply))

end ShogiBoard

/-! ## Numbers -/

section Numbers

variable {n : Nat} {ds : List Char}

theorem decimal_natCast (n : Nat) : decimal n = Nat.toDigits 10 n := by
  rw [decimal, if_neg (by omega), Int.natAbs_natCast]

theorem isDigit_of_mem_decimal {ch : Char} (h : ch ∈ decimal n) : ch.isDigit = true := by
  rw [decimal_natCast] at h
  exact Nat.isDigit_of_mem_toDigits (by decide) le_rfl h

theorem decimal_ne_nil {n : Int} : decimal n ≠ [] := by
  rw [decimal]
  split
  · exact List.cons_ne_nil _ _
  · exact Nat.toDigits_ne_nil

/-- The digits of a number, read from the left. -/
theorem foldl_digitValue_eq (init : Nat) :
    ds.foldl (fun (x : Int) ch => x * 10 + digitValue ch) init = Nat.ofDigitChars 10 ds init := by
  induction ds generalizing init with
  | nil => rfl
  | cons ch ds ih =>
    have hstep : (init : Int) * 10 + digitValue ch = ((10 * init + (ch.toNat - '0'.toNat) : Nat) : Int) := by
      rw [digitValue, show '0'.toNat = 48 from rfl]
      push_cast
      omega
    rw [List.foldl_cons, hstep, ih, Nat.ofDigitChars_cons]

/-- `std::stoi` reads back what `std::to_string` has written. -/
theorem stoi_decimal (h : n ≤ 2147483647) : stoi (decimal n) = some (n : Int) := by
  have hall : ∀ ch ∈ decimal n, ch.isDigit = true := fun ch => isDigit_of_mem_decimal
  obtain ⟨ch, ds, hds⟩ := List.exists_cons_of_ne_nil (@decimal_ne_nil n)
  have hsign : ∀ c : Char, c.isDigit = false → (decimal n).head? ≠ some c := by
    intro c hc hhead
    rw [hds, List.head?_cons, Option.some.injEq] at hhead
    rw [← hhead, hall ch (hds ▸ List.mem_cons_self)] at hc
    cases hc
  have htake : (decimal n).takeWhile Char.isDigit = decimal n :=
    List.takeWhile_eq_self_iff.mpr hall
  have hvalue : (decimal n).foldl (fun (x : Int) ch => x * 10 + digitValue ch) 0 = n := by
    have hfold := @foldl_digitValue_eq (decimal n) 0
    rw [decimal_natCast, Nat.ofDigitChars_toDigits (by decide) le_rfl] at hfold
    rw [decimal_natCast]
    exact hfold
  unfold stoi
  simp only [hsign '-' (by decide), hsign '+' (by decide), or_self, if_false,
    htake, hvalue, decimal_ne_nil, false_or]
  rw [if_neg (by omega)]

end Numbers

/-! ## Fields -/

section Fields

variable {token rest : List Char}

theorem nextToken_space : nextToken (' ' :: rest) = nextToken rest := by
  rw [nextToken, nextToken, List.dropWhile_cons_of_pos (by decide)]

/-- A field ends at a space, or at the end of the string. -/
theorem nextToken_append (hne : token ≠ []) (htoken : ∀ ch ∈ token, isSpace ch = false)
    (hrest : ∀ ch ∈ rest.head?, isSpace ch = true) : nextToken (token ++ rest) = (token, rest) := by
  obtain ⟨ch, ds, rfl⟩ := List.exists_cons_of_ne_nil hne
  have hdrop : (ch :: ds ++ rest).dropWhile isSpace = ch :: ds ++ rest := by
    rw [List.cons_append, List.dropWhile_cons_of_neg]
    rw [htoken ch List.mem_cons_self]
    exact Bool.false_ne_true
  have hstop : rest.takeWhile (!isSpace ·) = [] ∧ rest.dropWhile (!isSpace ·) = rest := by
    cases rest with
    | nil => exact ⟨rfl, rfl⟩
    | cons x rest =>
      have hx := hrest x rfl
      exact ⟨List.takeWhile_cons_of_neg (by simp [hx]), List.dropWhile_cons_of_neg (by simp [hx])⟩
  have hgo : ∀ x ∈ ch :: ds, (!isSpace x) = true := by
    intro x hx
    rw [htoken x hx]
    rfl
  rw [nextToken, hdrop, List.takeWhile_append_of_pos hgo, List.dropWhile_append_of_pos hgo, hstop.1,
    hstop.2, List.append_nil]

end Fields

/-! ## The board field -/

namespace ShogiBoard

/-- The entries of a rank, with `n` files left and `empty` squares counted. -/
def rankItems (b : ShogiBoard) (r : Nat) : Nat → Nat → List SfenItem
  | 0, empty => if 0 < empty then [.gap empty] else []
  | n + 1, empty =>
    let pc := b.board (.fromIdx (n * 9 + r))
    if pc.isNone then rankItems b r n (empty + 1)
    else (if 0 < empty then [.gap empty] else []) ++ .man pc.color pc.type :: rankItems b r n 0

/-- The men of a rank on the last `n` files. -/
def rankMen (b : ShogiBoard) (r : Nat) : Nat → List (Square × Piece)
  | 0 => []
  | n + 1 =>
    let pc := b.board (.fromIdx (n * 9 + r))
    if pc.isNone then rankMen b r n else (.fromIdx (n * 9 + r), pc) :: rankMen b r n

section Rank

variable {b : ShogiBoard} {r n e : Nat} {s : Square} {q : Piece}

theorem decimal_gap (h1 : 1 ≤ e) (h9 : e ≤ 9) : decimal e = (SfenItem.gap e).chars := by
  rw [decimal_natCast]
  interval_cases e <;> rfl

theorem flatMap_gap (h : e ≤ 9) : (if 0 < e then [SfenItem.gap e] else []).flatMap SfenItem.chars =
    if 0 < e then decimal e else [] := by
  split_ifs with he
  · rw [decimal_gap he h, List.flatMap_singleton]
  · rfl

theorem rankChars_eq (h : n + e ≤ 9) : b.rankChars r n e = (b.rankItems r n e).flatMap SfenItem.chars := by
  induction n generalizing e with
  | zero => rw [rankChars, rankItems, flatMap_gap (by omega)]
  | succ n ih =>
    rw [rankChars, rankItems]
    by_cases hnone : (b.board (.fromIdx (n * 9 + r))).isNone = true
    · rw [if_pos hnone, if_pos hnone]
      exact ih (by omega)
    · rw [if_neg hnone, if_neg hnone, List.flatMap_append, flatMap_gap (by omega), List.flatMap_cons,
        ih (by omega)]

theorem width_rankItems : ((b.rankItems r n e).map SfenItem.width).sum = n + e := by
  induction n generalizing e with
  | zero =>
    rw [rankItems]
    split_ifs with he
    · rw [List.map_singleton, List.sum_singleton, SfenItem.width, Nat.zero_add]
    · simp only [List.map_nil, List.sum_nil]
      omega
  | succ n ih =>
    rw [rankItems]
    split_ifs with hnone he
    · rw [ih]
      omega
    · simp only [List.singleton_append, List.map_cons, List.sum_cons, SfenItem.width, ih]
      omega
    · simp only [List.nil_append, List.map_cons, List.sum_cons, SfenItem.width, ih]
      omega

theorem valid_rankItems (hb : b.Agree) (h : n + e ≤ 9) : ∀ i ∈ b.rankItems r n e, i.Valid := by
  have hgap : ∀ e, e ≤ 9 → ∀ i ∈ (if 0 < e then [SfenItem.gap e] else []), i.Valid := by
    intro e he i hi
    split_ifs at hi with hpos
    · rw [List.mem_singleton.mp hi]
      exact ⟨hpos, he⟩
    · cases hi
  induction n generalizing e with
  | zero => exact hgap e (by omega)
  | succ n ih =>
    rw [rankItems]
    by_cases hnone : (b.board (.fromIdx (n * 9 + r))).isNone = true
    · rw [if_pos hnone]
      exact ih (by omega)
    · rw [if_neg hnone]
      intro i hi
      obtain hi | hi := List.mem_append.mp hi
      · exact hgap e (by omega) i hi
      · obtain rfl | hi := List.mem_cons.mp hi
        · exact hb.valid _ fun hnot => hnone (Piece.isNone_iff.mpr hnot)
        · exact ih (by omega) i hi

theorem placeRank_rankItems : placeRank r (n + e) (b.rankItems r n e) = b.rankMen r n := by
  induction n generalizing e with
  | zero =>
    rw [rankItems]
    split_ifs with he
    · rfl
    · rfl
  | succ n ih =>
    rw [rankItems, rankMen]
    split_ifs with hnone he
    · rw [← ih, Nat.add_right_comm, Nat.add_assoc]
    · rw [List.singleton_append, placeRank, Nat.add_sub_cancel, placeRank, Nat.add_sub_cancel]
      exact congrArg _ (ih (e := 0))
    · obtain rfl : e = 0 := by omega
      rw [List.nil_append, placeRank, Nat.add_zero, Nat.add_sub_cancel]
      exact congrArg _ (ih (e := 0))

theorem mem_rankMen (hr : r < 9) (hn : n ≤ 9) : (s, q) ∈ b.rankMen r n ↔
    s.rank = r ∧ s.file < n ∧ b.board s = q ∧ q.isNone = false := by
  induction n with
  | zero => exact iff_of_false List.not_mem_nil fun h => Nat.not_lt_zero _ h.2.1
  | succ n ih =>
    have hi : (Square.fromIdx (n * 9 + r)).val = n * 9 + r := PackedSfen.fromIdx_val (by omega)
    have hs : s = .fromIdx (n * 9 + r) ↔ s.rank = r ∧ s.file = n := by
      rw [Fin.ext_iff, hi, Square.rank, Square.file]
      omega
    have hsplit : s.file < n + 1 ↔ s.file = n ∨ s.file < n := by omega
    rw [rankMen, hsplit]
    split_ifs with hnone
    · rw [ih (by omega)]
      constructor
      · exact fun h => ⟨h.1, Or.inr h.2.1, h.2.2⟩
      · rintro ⟨hrank, hfile | hfile, hq, hsome⟩
        · rw [← hs.mpr ⟨hrank, hfile⟩, hq, hsome] at hnone
          cases hnone
        · exact ⟨hrank, hfile, hq, hsome⟩
    · rw [List.mem_cons, ih (by omega), Prod.mk.injEq, hs]
      constructor
      · rintro (⟨⟨hrank, hfile⟩, hq⟩ | ⟨hrank, hfile, hq⟩)
        · refine ⟨hrank, Or.inl hfile, ?_, ?_⟩
          · rw [hq, hs.mpr ⟨hrank, hfile⟩]
          · rw [hq, Bool.eq_false_iff]
            exact hnone
        · exact ⟨hrank, Or.inr hfile, hq⟩
      · rintro ⟨hrank, hfile | hfile, hq, hsome⟩
        · exact Or.inl ⟨⟨hrank, hfile⟩, by rw [← hq, hs.mpr ⟨hrank, hfile⟩]⟩
        · exact Or.inr ⟨hrank, hfile, hq, hsome⟩

/-- The entries of `k` ranks from rank `r` on. -/
def ranksItems (b : ShogiBoard) (r k : Nat) : List (List SfenItem) :=
  (List.range' r k).map fun r => b.rankItems r 9 0

theorem ranksItems_succ {k : Nat} :
    b.ranksItems r (k + 1) = b.rankItems r 9 0 :: b.ranksItems (r + 1) k := by
  rw [ranksItems, List.range'_succ, List.map_cons]
  rfl

theorem mem_placeRanks_ranksItems {k : Nat} (hk : r + k ≤ 9) :
    (s, q) ∈ placeRanks r (b.ranksItems r k) ↔
      r ≤ s.rank ∧ s.rank < r + k ∧ b.board s = q ∧ q.isNone = false := by
  induction k generalizing r with
  | zero => exact iff_of_false List.not_mem_nil fun h => by omega
  | succ k ih =>
    have hfile := s.file_lt
    have hrank : placeRank r 9 (b.rankItems r 9 0) = b.rankMen r 9 := placeRank_rankItems (e := 0)
    rw [ranksItems_succ, placeRanks, List.mem_append, hrank, mem_rankMen (by omega) le_rfl,
      ih (by omega)]
    constructor
    · rintro (⟨h, -, hq⟩ | ⟨h1, h2, hq⟩)
      · exact ⟨by omega, by omega, hq⟩
      · exact ⟨by omega, by omega, hq⟩
    · rintro ⟨h1, h2, hq⟩
      by_cases h : s.rank = r
      · exact Or.inl ⟨h, hfile, hq⟩
      · exact Or.inr ⟨by omega, by omega, hq⟩

theorem mem_ranksItems {k : Nat} {l : List SfenItem} (h : l ∈ b.ranksItems r k) :
    ∃ r, l = b.rankItems r 9 0 := by
  obtain ⟨r, -, rfl⟩ := List.mem_map.mp h
  exact ⟨r, rfl⟩

/-- The board loop writes slashes between the ranks. -/
theorem boardChars_eq : b.boardChars =
    List.intercalate ['/'] ((b.ranksItems 0 9).map fun l => l.flatMap SfenItem.chars) := by
  have hrank : ∀ r, (b.rankItems r 9 0).flatMap SfenItem.chars = b.rankChars r 9 0 :=
    fun r => (rankChars_eq le_rfl).symm
  have hrange : List.range 9 = [0, 1, 2, 3, 4, 5, 6, 7, 8] := rfl
  have hrange' : List.range' 0 9 = [0, 1, 2, 3, 4, 5, 6, 7, 8] := rfl
  rw [boardChars, ranksItems, hrange, hrange']
  simp only [List.map_cons, List.map_nil, hrank, List.intercalate_cons_cons,
    List.intercalate_singleton, List.flatMap_cons, List.flatMap_nil, List.append_nil,
    List.append_assoc]
  rfl

/-- The men of the ranks stand on different squares. -/
theorem nodup_ranksItems (hb : b.Agree) : ((placeRanks 0 (b.ranksItems 0 9)).map Prod.fst).Nodup := by
  refine nodup_placeRanks (by rw [ranksItems, List.length_map, List.length_range']) ?_ ?_
  · intro l hl
    obtain ⟨r, rfl⟩ := mem_ranksItems hl
    exact width_rankItems
  · intro l hl
    obtain ⟨r, rfl⟩ := mem_ranksItems hl
    exact valid_rankItems hb le_rfl

/-- Each side has at most one king. -/
theorem nodup_kings (hb : b.Agree) :
    (((b.ranksItems 0 9).flatten.filterMap SfenItem.piece?).filter (·.type = .king)).Nodup := by
  have hnodup := nodup_ranksItems hb
  rw [← pieces_placeRanks (r := 0), List.filter_map]
  refine List.Nodup.map_on ?_ (hnodup.of_map _ |>.filter _)
  rintro ⟨s, q⟩ hs ⟨s', q'⟩ hs' rfl
  obtain ⟨hmem, hking⟩ := List.mem_filter.mp hs
  obtain ⟨hmem', -⟩ := List.mem_filter.mp hs'
  obtain ⟨-, -, hq, -⟩ := (mem_placeRanks_ranksItems (by decide)).mp hmem
  obtain ⟨-, -, hq', -⟩ := (mem_placeRanks_ranksItems (by decide)).mp hmem'
  have hkind : q.type = .king := of_decide_eq_true hking
  have hpiece : q = ⟨q.color, .king⟩ := Piece.ext rfl hkind
  have hsquare := hb.king_sq q.color s (hq.trans hpiece)
  have hsquare' := hb.king_sq q.color s' (hq'.trans hpiece)
  rw [hsquare, Option.some.injEq] at hsquare'
  rw [hsquare']

/-- The board field draws the men of the board. -/
theorem exists_diagram (hb : b.Agree) : ∃ d : Diagram, d.chars = b.boardChars ∧
    ∀ s, (new.placeAll (placeRanks 0 d.ranks)).board s = b.board s := by
  have hvalid : ∀ l ∈ b.ranksItems 0 9, ∀ i ∈ l, i.Valid := by
    intro l hl
    obtain ⟨r, rfl⟩ := mem_ranksItems hl
    exact valid_rankItems hb le_rfl
  have hwide : ∀ l ∈ b.ranksItems 0 9, (l.map SfenItem.width).sum = 9 := by
    intro l hl
    obtain ⟨r, rfl⟩ := mem_ranksItems hl
    exact width_rankItems
  refine ⟨⟨b.ranksItems 0 9, ?_, hwide, hvalid, nodup_kings hb⟩, boardChars_eq.symm, fun s => ?_⟩
  · rw [ranksItems, List.length_map, List.length_range']
  · have hrank : s.rank < 9 := s.rank_lt
    by_cases hnone : (b.board s).isNone = true
    · rw [board_placeAll_of_not_mem, Piece.isNone_iff.mp hnone]
      · rfl
      · rintro ⟨s', q⟩ hm rfl
        obtain ⟨-, -, hq, hsome⟩ := (mem_placeRanks_ranksItems (by decide)).mp hm
        rw [hq, hsome] at hnone
        cases hnone
    · have hmem : (s, b.board s) ∈ placeRanks 0 (b.ranksItems 0 9) :=
        (mem_placeRanks_ranksItems (by decide)).mpr
          ⟨Nat.zero_le _, by omega, rfl, Bool.not_eq_true _ ▸ hnone⟩
      exact board_placeAll_of_mem (nodup_ranksItems hb) hmem

end Rank

/-! ## The hand field -/

section Hands

variable {b b' : ShogiBoard} {c x : Color} {pt qt : PieceType} {ds l rest : List Char} {k : Nat}

theorem digit_of_isDigit {ch : Char} (h : ch.isDigit = true) : '0' ≤ ch ∧ ch ≤ '9' := by
  rw [Char.isDigit, Bool.and_eq_true, decide_eq_true_eq, decide_eq_true_eq] at h
  exact h

theorem step_digit (ch : Char) : k * 10 + digitValue ch = 10 * k + (ch.toNat - '0'.toNat) := by
  rw [digitValue, Nat.mul_comm]
  rfl

theorem namedMen_digits (hds : ∀ ch ∈ ds, ch.isDigit = true) :
    namedMen (ds ++ rest) k x qt = namedMen rest (Nat.ofDigitChars 10 ds k) x qt := by
  induction ds generalizing k with
  | nil => rw [List.nil_append, Nat.ofDigitChars_nil]
  | cons ch ds ih =>
    obtain ⟨hch, hds⟩ := List.forall_mem_cons.mp hds
    rw [List.cons_append, namedMen, if_pos (digit_of_isDigit hch), ih hds, Nat.ofDigitChars_cons,
      step_digit]

theorem le_ofDigitChars (ds : List Char) (k : Nat) : k ≤ Nat.ofDigitChars 10 ds k := by
  rw [Nat.ofDigitChars_eq_ofDigitChars_zero]
  exact (Nat.le_mul_of_pos_left k (Nat.pow_pos (by decide))).trans (Nat.le_add_right _ _)

theorem numbersFit_digits (hds : ∀ ch ∈ ds, ch.isDigit = true)
    (hlt : Nat.ofDigitChars 10 ds k < 2147483648) :
    numbersFit (ds ++ rest) k = numbersFit rest (Nat.ofDigitChars 10 ds k) := by
  induction ds generalizing k with
  | nil => rw [List.nil_append, Nat.ofDigitChars_nil]
  | cons ch ds ih =>
    obtain ⟨hch, hds⟩ := List.forall_mem_cons.mp hds
    rw [Nat.ofDigitChars_cons, ← step_digit] at hlt
    have hfirst := (le_ofDigitChars ds (k * 10 + digitValue ch)).trans_lt hlt
    rw [List.cons_append, numbersFit, if_pos (digit_of_isDigit hch), decide_eq_true hfirst,
      Bool.true_and, ih hds hlt, Nat.ofDigitChars_cons, step_digit]

theorem handLetter_spec : ∀ (c : Color) (pt : PieceType), pt ∈ sfenHandOrder →
    ¬ ('0' ≤ SfenItem.letter c pt ∧ SfenItem.letter c pt ≤ '9') ∧
      PieceType.parse (SfenItem.letter c pt) = pt ∧ colorOfLetter (SfenItem.letter c pt) = c := by
  decide

theorem isHandPiece_of_mem_sfenHandOrder : ∀ pt ∈ sfenHandOrder, pt.isHandPiece = true := by decide

/-- An entry is a number, unless it is one, and a letter. -/
theorem exists_digits (hcnt : (b.hand c).count pt ≠ 0) : ∃ ds : List Char,
    b.handEntry c pt = ds ++ [SfenItem.letter c pt] ∧ (∀ ch ∈ ds, ch.isDigit = true) ∧
      (if Nat.ofDigitChars 10 ds 0 = 0 then 1 else Nat.ofDigitChars 10 ds 0) = (b.hand c).count pt := by
  rw [handEntry]
  by_cases hmany : 1 < (b.hand c).count pt
  · refine ⟨decimal ((b.hand c).count pt), ?_, fun ch => isDigit_of_mem_decimal, ?_⟩
    · rw [if_neg hcnt, if_pos hmany]
    · rw [decimal_natCast, Nat.ofDigitChars_toDigits (by decide) le_rfl, if_neg hcnt]
  · refine ⟨[], ?_, fun ch h => absurd h List.not_mem_nil, ?_⟩
    · rw [if_neg hcnt, if_neg hmany]
    · rw [Nat.ofDigitChars_nil, if_pos rfl]
      omega

theorem namedMen_handEntry (hpt : pt ∈ sfenHandOrder) : namedMen (b.handEntry c pt ++ rest) 0 x qt =
    (if c = x ∧ pt = qt then (b.hand c).count pt else 0) + namedMen rest 0 x qt := by
  by_cases hcnt : (b.hand c).count pt = 0
  · rw [handEntry, if_pos hcnt, List.nil_append, hcnt, ite_self, Nat.zero_add]
  · obtain ⟨ds, hentry, hds, hvalue⟩ := exists_digits hcnt
    obtain ⟨hletter, hparse, hcolor⟩ := handLetter_spec c pt hpt
    rw [hentry, List.append_assoc, namedMen_digits hds, List.singleton_append, namedMen, if_neg hletter,
      hparse, hcolor, hvalue]

theorem numbersFit_handEntry (hpt : pt ∈ sfenHandOrder) :
    numbersFit (b.handEntry c pt ++ rest) 0 = numbersFit rest 0 := by
  by_cases hcnt : (b.hand c).count pt = 0
  · rw [handEntry, if_pos hcnt, List.nil_append]
  · obtain ⟨ds, hentry, hds, hvalue⟩ := exists_digits hcnt
    have hlt : (b.hand c).count pt < 2147483648 :=
      (Hand.count_lt (b.hand c) pt).trans_le (by cases pt <;> decide)
    have hfit : Nat.ofDigitChars 10 ds 0 < 2147483648 := by
      split_ifs at hvalue <;> omega
    rw [hentry, List.append_assoc, numbersFit_digits hds hfit, List.singleton_append, numbersFit,
      if_neg (handLetter_spec c pt hpt).1]

theorem isHandChar_of_mem_handEntry (hpt : pt ∈ sfenHandOrder) :
    ∀ ch ∈ b.handEntry c pt, IsHandChar ch := by
  intro ch hch
  by_cases hcnt : (b.hand c).count pt = 0
  · rw [handEntry, if_pos hcnt] at hch
    cases hch
  · obtain ⟨ds, hentry, hds, -⟩ := exists_digits hcnt
    rw [hentry] at hch
    obtain hch | hch := List.mem_append.mp hch
    · exact Or.inl (digit_of_isDigit (hds ch hch))
    · rw [List.mem_singleton.mp hch]
      refine Or.inr ?_
      rw [(handLetter_spec c pt hpt).2.1]
      exact isHandPiece_of_mem_sfenHandOrder pt hpt

theorem mem_handChars {ch : Char} : ch ∈ b.handChars ↔
    ∃ c pt, pt ∈ sfenHandOrder ∧ ch ∈ b.handEntry c pt := by
  simp only [handChars, List.mem_flatMap]
  constructor
  · rintro ⟨c, -, pt, hpt, hch⟩
    exact ⟨c, pt, hpt, hch⟩
  · rintro ⟨c, pt, hpt, hch⟩
    exact ⟨c, by cases c <;> decide, pt, hpt, hch⟩

/-- The hand field names the men in hand. -/
theorem namedMen_handChars : namedMen b.handChars 0 x qt = (b.hand x).count qt := by
  have hpts : ∀ (c : Color) (pts : List PieceType) (rest : List Char), (∀ pt ∈ pts, pt ∈ sfenHandOrder) →
      namedMen (pts.flatMap (b.handEntry c) ++ rest) 0 x qt =
        (pts.map fun pt => if c = x ∧ pt = qt then (b.hand c).count pt else 0).sum +
          namedMen rest 0 x qt := by
    intro c pts rest hpts
    induction pts with
    | nil => rw [List.flatMap_nil, List.nil_append, List.map_nil, List.sum_nil, Nat.zero_add]
    | cons pt pts ih =>
      obtain ⟨hpt, hpts⟩ := List.forall_mem_cons.mp hpts
      rw [List.flatMap_cons, List.append_assoc, namedMen_handEntry hpt, ih hpts, List.map_cons,
        List.sum_cons, Nat.add_assoc]
  have hall : ∀ pt ∈ sfenHandOrder, pt ∈ sfenHandOrder := fun _ h => h
  have hnot : qt.isHandPiece = false → (b.hand x).count qt = 0 := fun h =>
    Hand.count_of_not_handPiece h _
  rw [handChars, List.flatMap_cons, List.flatMap_singleton, hpts _ _ _ hall, ← List.append_nil
    (sfenHandOrder.flatMap _), hpts _ _ _ hall, namedMen]
  cases x <;> cases qt <;> first | exact (hnot rfl).symm | simp [sfenHandOrder]

theorem numbersFit_handChars : numbersFit b.handChars 0 = true := by
  have hpts : ∀ (c : Color) (pts : List PieceType) (rest : List Char), (∀ pt ∈ pts, pt ∈ sfenHandOrder) →
      numbersFit (pts.flatMap (b.handEntry c) ++ rest) 0 = numbersFit rest 0 := by
    intro c pts rest hpts
    induction pts with
    | nil => rfl
    | cons pt pts ih =>
      obtain ⟨hpt, hpts⟩ := List.forall_mem_cons.mp hpts
      rw [List.flatMap_cons, List.append_assoc, numbersFit_handEntry hpt, ih hpts]
  have hall : ∀ pt ∈ sfenHandOrder, pt ∈ sfenHandOrder := fun _ h => h
  rw [handChars, List.flatMap_cons, List.flatMap_singleton, hpts _ _ _ hall, ← List.append_nil
    (sfenHandOrder.flatMap _), hpts _ _ _ hall]
  rfl

end Hands

/-! ## The whole string -/

section Spaces

variable {b : ShogiBoard} {c : Color} {pt : PieceType}

theorem isSpace_of_isDigit {ch : Char} (h : ch.isDigit = true) : isSpace ch = false := by
  obtain ⟨h1, h2⟩ := Char.isDigit_iff_toNat.mp h
  have hne : ch ≠ ' ' := by
    rintro rfl
    exact absurd h1 (by decide)
  have h48 : '0'.toNat = 48 := rfl
  rw [isSpace, decide_eq_false hne, Bool.false_or, Bool.and_eq_false_iff, decide_eq_false_iff_not,
    decide_eq_false_iff_not]
  exact Or.inr (by omega)

theorem isSpace_letter : ∀ (c : Color) (pt : PieceType), isSpace (SfenItem.letter c pt) = false := by
  decide

theorem isSpace_of_mem_item {i : SfenItem} (hi : i.Valid) : ∀ ch ∈ i.chars, isSpace ch = false := by
  cases i with
  | gap n =>
    intro ch hch
    obtain ⟨h1, h9⟩ := hi
    rw [← decimal_gap h1 h9] at hch
    exact isSpace_of_isDigit (isDigit_of_mem_decimal hch)
  | man c pt =>
    intro ch hch
    rw [SfenItem.chars] at hch
    split_ifs at hch
    · obtain rfl | hch := List.mem_cons.mp hch
      · decide
      · rw [List.mem_singleton.mp hch, isSpace_letter]
    · rw [List.mem_singleton.mp hch, isSpace_letter]

theorem isSpace_of_mem_boardChars (hb : b.Agree) : ∀ ch ∈ b.boardChars, isSpace ch = false := by
  intro ch hch
  obtain ⟨r, -, hch⟩ := List.mem_flatMap.mp hch
  obtain hch | hch := List.mem_append.mp hch
  · split_ifs at hch
    · rw [List.mem_singleton.mp hch]
      decide
    · cases hch
  · rw [rankChars_eq le_rfl] at hch
    obtain ⟨i, hi, hch⟩ := List.mem_flatMap.mp hch
    exact isSpace_of_mem_item (valid_rankItems hb le_rfl i hi) ch hch

theorem boardChars_ne_nil : b.boardChars ≠ [] := by
  apply List.ne_nil_of_mem (a := '/')
  exact List.mem_flatMap.mpr ⟨1, by decide, List.mem_append_left _ (by decide)⟩

/-- A hand field has digits and letters only. -/
theorem of_mem_handChars {ch : Char} (h : ch ∈ b.handChars) :
    IsHandChar ch ∧ isSpace ch = false ∧ ch ≠ '-' := by
  have hdash : ∀ c, ∀ pt ∈ sfenHandOrder, SfenItem.letter c pt ≠ '-' ∧
      isSpace (SfenItem.letter c pt) = false := by decide
  obtain ⟨c, pt, hpt, hch⟩ := mem_handChars.mp h
  refine ⟨isHandChar_of_mem_handEntry hpt ch hch, ?_⟩
  have hcnt : (b.hand c).count pt ≠ 0 := by
    intro hzero
    rw [handEntry, if_pos hzero] at hch
    cases hch
  obtain ⟨ds, hentry, hds, -⟩ := exists_digits hcnt
  rw [hentry] at hch
  obtain hch | hch := List.mem_append.mp hch
  · refine ⟨isSpace_of_isDigit (hds ch hch), ?_⟩
    rintro rfl
    exact absurd (hds _ hch) (by decide)
  · rw [List.mem_singleton.mp hch]
    exact ⟨(hdash c pt hpt).2, (hdash c pt hpt).1⟩

/-- `-` stands for empty hands. -/
theorem handLetters_field :
    handLetters (if b.handChars.isEmpty then ['-'] else b.handChars) = b.handChars := by
  by_cases hempty : b.handChars.isEmpty = true
  · rw [if_pos hempty, List.isEmpty_iff.mp hempty]
    rfl
  · rw [if_neg hempty, handLetters, if_pos]
    intro hdash
    exact (of_mem_handChars (hdash ▸ List.mem_singleton_self '-')).2.2 rfl

/-- A number is written without spaces. -/
theorem isSpace_of_mem_decimal {n : Int} : ∀ ch ∈ decimal n, isSpace ch = false := by
  have hdigits : ∀ ch ∈ Nat.toDigits 10 n.natAbs, isSpace ch = false := fun ch hch =>
    isSpace_of_isDigit (Nat.isDigit_of_mem_toDigits (by decide) le_rfl hch)
  intro ch hch
  rw [decimal] at hch
  split at hch
  · obtain rfl | hch := List.mem_cons.mp hch
    · decide
    · exact hdigits ch hch
  · exact hdigits ch hch

/-- `SetFromSfen` finds the fields. -/
theorem setFromSfen_toSfen_eq (hb : b.Agree) : setFromSfen b.toSfen =
    setFromFields b.boardChars [if b.sideToMove = .black then 'b' else 'w']
      (if b.handChars.isEmpty then ['-'] else b.handChars) (decimal b.ply) := by
  have hspace : ∀ rest : List Char, ∀ ch ∈ (' ' :: rest).head?, isSpace ch = true := by
    intro rest ch hch
    rw [← Option.some.inj hch]
    decide
  have hside : ∀ ch ∈ [if b.sideToMove = .black then 'b' else 'w'], isSpace ch = false := by
    intro ch hch
    rw [List.mem_singleton.mp hch]
    split_ifs
    · decide
    · decide
  have hfield : ∀ ch ∈ (if b.handChars.isEmpty then ['-'] else b.handChars), isSpace ch = false := by
    intro ch hch
    split_ifs at hch
    · rw [List.mem_singleton.mp hch]
      decide
    · exact (of_mem_handChars hch).2.1
  have hfield_ne : (if b.handChars.isEmpty then ['-'] else b.handChars) ≠ [] := by
    split_ifs with hempty
    · exact List.cons_ne_nil _ _
    · exact fun h => hempty (List.isEmpty_iff.mpr h)
  have h1 := nextToken_append boardChars_ne_nil (isSpace_of_mem_boardChars hb) (hspace
    ((if b.sideToMove = .black then 'b' else 'w') :: ' ' ::
      ((if b.handChars.isEmpty then ['-'] else b.handChars) ++ ' ' :: decimal b.ply)))
  have h2 := nextToken_append (List.cons_ne_nil _ _) hside (hspace
    ((if b.handChars.isEmpty then ['-'] else b.handChars) ++ ' ' :: decimal b.ply))
  have h3 := nextToken_append hfield_ne hfield (hspace (decimal b.ply))
  have h4 := @nextToken_append (decimal b.ply) [] decimal_ne_nil isSpace_of_mem_decimal fun ch hch => by cases hch
  rw [List.singleton_append] at h2
  rw [List.append_nil] at h4
  simp only [setFromSfen, toSfen, h1, nextToken_space, h2, h3, h4]

end Spaces

/-- What a round trip gives back. -/
structure Restored (b b' : ShogiBoard) : Prop where
  consistent : b'.Consistent
  board : b'.board = b.board
  counts : ∀ c pt, (b'.hand c).count pt = (b.hand c).count pt
  hand : (∀ c, (b.hand c).Clean) → b'.hand = b.hand
  sideToMove : b'.sideToMove = b.sideToMove
  ply : b'.ply = b.ply
  hash : b.hash = b.scratchHash → b'.hash = b.hash
  toSfen : b'.toSfen = b.toSfen

section RoundTrip

variable {b b' : ShogiBoard}

theorem count_empty : ∀ pt, Hand.empty.count pt = 0 := by decide

theorem toSfen_congr (hboard : b'.board = b.board)
    (hcounts : ∀ c pt, (b'.hand c).count pt = (b.hand c).count pt)
    (hside : b'.sideToMove = b.sideToMove) (hply : b'.ply = b.ply) : b'.toSfen = b.toSfen := by
  have hrank : ∀ r n e, b'.rankChars r n e = b.rankChars r n e := by
    intro r n e
    induction n generalizing e with
    | zero => rfl
    | succ n ih => rw [rankChars, rankChars, hboard, ih, ih]
  have hboardChars : b'.boardChars = b.boardChars := by
    simp only [boardChars, hrank]
  have hentry : ∀ c, b'.handEntry c = b.handEntry c := by
    intro c
    funext pt
    rw [handEntry, handEntry, hcounts]
  have hhand : b'.handChars = b.handChars := by
    simp only [handChars, hentry]
  rw [ShogiBoard.toSfen, ShogiBoard.toSfen, hboardChars, hhand, hside, hply]

/-- `SetFromSfen` accepts what `ToSfen` writes, whatever the king squares and the bitboards of the
board are good for. -/
theorem exists_setFromSfen_toSfen (hb : b.Agree) : ∃ b', setFromSfen b.toSfen = .ok b' ∧ b'.Fresh ∧
    b'.board = b.board ∧ (∀ c pt, (b'.hand c).count pt = (b.hand c).count pt) ∧
    (∀ c, (b'.hand c).Clean) ∧ b'.sideToMove = b.sideToMove ∧
    b'.ply = (stoi (decimal b.ply)).getD 1 := by
  obtain ⟨d, hchars, hmen⟩ := exists_diagram hb
  obtain ⟨hhand, -⟩ := @placeAll_rest new (placeRanks 0 d.ranks)
  have hempty : ∀ c pt, (((new.placeAll (placeRanks 0 d.ranks)).hand c).count pt) = 0 := by
    intro c pt
    rw [hhand]
    exact count_empty pt
  have hclean : ∀ c, ((new.placeAll (placeRanks 0 d.ranks)).hand c).Clean := by
    intro c
    rw [hhand]
    exact Hand.clean_empty
  have hletters : ∀ ch ∈ b.handChars, IsHandChar ch := fun ch hch => (of_mem_handChars hch).1
  obtain ⟨b₂, hok, hcounts, hclean₂⟩ := @parseHand_spec _ 0
    { new.placeAll (placeRanks 0 d.ranks) with
      sideToMove := if [if b.sideToMove = .black then 'b' else 'w'] = ['w'] then .white else .black }
    hletters numbersFit_handChars fun c pt => by
      rw [hempty, Nat.zero_add, namedMen_handChars]
      exact Hand.count_lt _ _
  have hside : (if [if b.sideToMove = .black then 'b' else 'w'] = ['w'] then Color.white else .black) =
      b.sideToMove := by
    cases b.sideToMove <;> rfl
  have hcount : ∀ c pt, (b₂.hand c).count pt = (b.hand c).count pt := by
    intro c pt
    rw [hcounts, hempty, Nat.zero_add, namedMen_handChars]
  have hrest := parseHand_eq hok
  have hplyStr : (if (decimal b.ply).isEmpty then 1 else (stoi (decimal b.ply)).getD 1) =
      (stoi (decimal b.ply)).getD 1 :=
    if_neg fun h => decimal_ne_nil (List.isEmpty_iff.mp h)
  have hfields : setFromFields d.chars [if b.sideToMove = .black then 'b' else 'w']
      (if b.handChars.isEmpty then ['-'] else b.handChars) (decimal b.ply) =
        .ok ({ b₂ with ply := (stoi (decimal b.ply)).getD 1 } : ShogiBoard).computeHash.clearHistory := by
    refine setFromFields_ok_iff.mpr ⟨_, b₂, parseBoard_diagram d, ?_, by rw [hplyStr]⟩
    rw [handLetters_field]
    exact hok
  have hboard : b₂.board = b.board := by
    funext s
    rw [hrest]
    exact hmen s
  have hturn : b₂.sideToMove = b.sideToMove := by
    rw [hrest]
    exact hside
  exact ⟨_, by rw [setFromSfen_toSfen_eq hb, ← hchars, hfields], fresh_of_setFromFields d hfields,
    hboard, hcount, hclean₂ hclean, hturn, rfl⟩

end RoundTrip

end ShogiBoard

end Shogi
