import ShogiEngine.Shogi.Hand
import ShogiEngine.Shogi.Sfen

/-!
# Safety of the SFEN parser

The board loop counts a file and a rank and puts each man where the counters stand, without a look
at the counters or at the square; the hand loop adds whatever it reads. When does it go well?

## Main definitions

- `PutCall`, `putCalls`: the calls of `PutPiece` by the board loop
- `SfenSafe`: the parser returns `false` or sets up a sound board
- `Drawn`, `HandFieldFits`: well-formed board and hand fields, character by character

## Main results

- `sfenSafe_iff`: the inputs on which the parser is safe
-/

namespace Shogi

/-! ## What stands before a character -/

/-- Is a character of the board field taken for the letter of a man? -/
def isManChar (ch : Char) : Bool := ch != '/' && ch != '+' && !('1' ≤ ch && ch ≤ '9')

/-- The files that a character of a rank takes up. -/
def filesOf (ch : Char) : Nat :=
  if ch = '+' then 0 else if '1' ≤ ch ∧ ch ≤ '9' then digitValue ch else 1

/-- The files taken up since the last '/'. -/
def filesTaken (pre : List Char) : Nat := ((pre.reverse.takeWhile (· != '/')).map filesOf).sum

/-- Is a '+' waiting for its man? -/
def isMarked (pre : List Char) : Bool := (pre.reverse.takeWhile (!isManChar ·)).contains '+'

theorem isManChar_iff {ch : Char} :
    isManChar ch = true ↔ ch ≠ '/' ∧ ch ≠ '+' ∧ ¬ ('1' ≤ ch ∧ ch ≤ '9') := by
  simp only [isManChar, Bool.and_eq_true, bne_iff_ne, Bool.not_eq_true', Bool.and_eq_false_imp,
    decide_eq_true_eq, decide_eq_false_iff_not, not_and, and_assoc]

section Prefix

variable {pre : List Char} {ch : Char}

theorem filesTaken_slash : filesTaken (pre ++ ['/']) = 0 := by
  simp [filesTaken]

theorem filesTaken_snoc (h : ch ≠ '/') :
    filesTaken (pre ++ [ch]) = filesTaken pre + filesOf ch := by
  simp [filesTaken, h, Nat.add_comm]

theorem isMarked_plus : isMarked (pre ++ ['+']) = true := by
  have h : isManChar '+' = false := by decide
  simp [isMarked, h]

theorem isMarked_man (h : isManChar ch = true) : isMarked (pre ++ [ch]) = false := by
  simp [isMarked, h]

theorem isMarked_other (h : isManChar ch = false) (hplus : ch ≠ '+') :
    isMarked (pre ++ [ch]) = isMarked pre := by
  simp [isMarked, h, Ne.symm hplus]

end Prefix

/-! ## A property of every character of a field -/

/-- A property of each character of `rest` and of what stands before it, `pre` to begin with. -/
def Along (P : List Char → Char → Prop) (pre rest : List Char) : Prop :=
  ∀ mid ch, mid ++ [ch] <+: rest → P (pre ++ mid) ch

section Along

variable {P Q : List Char → Char → Prop} {pre rest : List Char} {ch : Char}

theorem along_nil : Along P pre [] := by
  intro mid ch h
  rw [List.prefix_nil] at h
  simp at h

theorem along_cons : Along P pre (ch :: rest) ↔ P pre ch ∧ Along P (pre ++ [ch]) rest := by
  constructor
  · intro h
    refine ⟨?_, fun mid x hx => ?_⟩
    · have := h [] ch (by simp)
      rwa [List.append_nil] at this
    · have := h (ch :: mid) x (by rwa [List.cons_append, List.cons_prefix_cons, and_iff_right rfl])
      rwa [List.append_assoc, List.singleton_append]
  · rintro ⟨hhead, htail⟩ mid x hx
    cases mid with
    | nil =>
      rw [List.nil_append, List.cons_prefix_cons] at hx
      rw [List.append_nil, hx.1]
      exact hhead
    | cons y mid =>
      rw [List.cons_append, List.cons_prefix_cons] at hx
      have := htail mid x hx.2
      rwa [List.append_assoc, List.singleton_append, ← hx.1] at this

theorem Along.imp (h : ∀ pre ch, P pre ch → Q pre ch) (hp : Along P pre rest) : Along Q pre rest :=
  fun mid ch hm => h _ _ (hp mid ch hm)

end Along

/-! ## The calls of `PutPiece` -/

/-- A call of `PutPiece` by the board loop: the board it is made on, the counters, the man of the
letter and the mark before it. -/
structure PutCall where
  board : ShogiBoard
  f : Int
  r : Int
  color : Color
  type : PieceType
  promoted : Bool

/-- A call in order: the counters stand on an empty square of the board, and only a man that
promotes is marked. -/
structure PutCall.Sound (call : PutCall) : Prop where
  onEmpty : ∃ s : Square, (s.file : Int) = call.f ∧ (s.rank : Int) = call.r ∧
    call.board.board s = .none
  promotable : call.promoted = true → call.type.canPromote = true

namespace ShogiBoard

/-- The calls of `PutPiece` by the board loop, up to a character that stops it. -/
def putCalls : List Char → Int → Int → Bool → ShogiBoard → List PutCall
  | [], _, _, _, _ => []
  | ch :: rest, f, r, promoted, b =>
    if ch = '/' then putCalls rest 8 (r + 1) promoted b
    else if ch = '+' then putCalls rest f r true b
    else if '1' ≤ ch ∧ ch ≤ '9' then putCalls rest (f - digitValue ch) r promoted b
    else
      let c := colorOfLetter ch
      let pt := PieceType.parse ch
      if !pt.isValid then []
      else
        ⟨b, f, r, c, pt, promoted⟩ :: (squareOfInts f r).elim [] fun s =>
          putCalls rest (f - 1) r false (b.putPiece s ⟨c, if promoted then pt.promote else pt⟩)

end ShogiBoard

/-! ## The loop, character by character -/

/-- Both counters are in range. -/
def CountersFit (pre : List Char) : Prop :=
  fitsInt (pre.count '/') = true ∧ fitsInt (8 - filesTaken pre) = true

/-- The loop gets past the character after `pre`. -/
structure Passes (pre : List Char) (ch : Char) : Prop where
  counters : CountersFit (pre ++ [ch])
  man : isManChar ch = true → (PieceType.parse ch).isValid = true ∧
    (squareOfInts (8 - filesTaken pre) (pre.count '/')).isSome = true

/-- The man that the letter after `pre` stands for. -/
def manAt (pre : List Char) (ch : Char) : Piece :=
  ⟨colorOfLetter ch, if isMarked pre then (PieceType.parse ch).promote else PieceType.parse ch⟩

namespace ShogiBoard

/-- The board loop after `pre`. -/
def parseFrom (pre rest : List Char) (b : ShogiBoard) : Except SfenError ShogiBoard :=
  parseBoard rest (8 - filesTaken pre) (pre.count '/') (isMarked pre) b

/-- The calls of the board loop after `pre`. -/
def callsFrom (pre rest : List Char) (b : ShogiBoard) : List PutCall :=
  putCalls rest (8 - filesTaken pre) (pre.count '/') (isMarked pre) b

/-- The call for the letter after `pre`. -/
def callAt (pre : List Char) (ch : Char) (b : ShogiBoard) : PutCall :=
  ⟨b, 8 - filesTaken pre, pre.count '/', colorOfLetter ch, PieceType.parse ch, isMarked pre⟩

section Loop

variable {pre rest : List Char} {ch : Char} {b b' : ShogiBoard} {s : Square}

/-- A character that is no man's letter moves the counters. -/
theorem loop_skip (rest : List Char) (b : ShogiBoard) (hman : isManChar ch = false) (h : Passes pre ch) :
    parseFrom pre (ch :: rest) b = parseFrom (pre ++ [ch]) rest b ∧
      callsFrom pre (ch :: rest) b = callsFrom (pre ++ [ch]) rest b := by
  have hcounters := h.counters
  simp only [CountersFit, List.count_append] at hcounters
  simp only [parseFrom, callsFrom, List.count_append]
  by_cases hslash : ch = '/'
  · subst hslash
    rw [List.count_singleton_self, Nat.cast_add, Nat.cast_one] at hcounters ⊢
    rw [parseBoard_slash hcounters.1, filesTaken_slash, isMarked_other hman (by decide)]
    exact ⟨rfl, rfl⟩
  rw [List.count_singleton, beq_false_of_ne hslash] at hcounters ⊢
  by_cases hplus : ch = '+'
  · subst hplus
    rw [filesTaken_snoc hslash, isMarked_plus]
    exact ⟨rfl, rfl⟩
  have hdigit : '1' ≤ ch ∧ ch ≤ '9' := by
    by_contra hdigit
    exact Bool.false_ne_true (hman.symm.trans (isManChar_iff.mpr ⟨hslash, hplus, hdigit⟩))
  have hstep : (8 : Int) - filesTaken (pre ++ [ch]) = 8 - filesTaken pre - digitValue ch := by
    rw [filesTaken_snoc hslash, filesOf, if_neg hplus, if_pos hdigit]
    omega
  rw [hstep] at hcounters ⊢
  rw [parseBoard_digit hdigit hcounters.2, isMarked_other hman hplus, putCalls, if_neg hslash,
    if_neg hplus, if_pos hdigit]
  exact ⟨rfl, rfl⟩

/-- A man's letter calls `PutPiece`. -/
theorem loop_man (rest : List Char) (b : ShogiBoard) (hman : isManChar ch = true) (h : Passes pre ch)
    (hs : squareOfInts (8 - filesTaken pre) (pre.count '/') = some s) :
    parseFrom pre (ch :: rest) b = parseFrom (pre ++ [ch]) rest (b.putPiece s (manAt pre ch)) ∧
      callsFrom pre (ch :: rest) b =
        callAt pre ch b :: callsFrom (pre ++ [ch]) rest (b.putPiece s (manAt pre ch)) := by
  obtain ⟨hslash, hplus, hdigit⟩ := isManChar_iff.mp hman
  have hstep : (8 : Int) - filesTaken (pre ++ [ch]) = 8 - filesTaken pre - 1 := by
    rw [filesTaken_snoc hslash, filesOf, if_neg hplus, if_neg hdigit]
    omega
  have hf := h.counters.2
  rw [hstep] at hf
  rw [parseFrom, callsFrom, parseFrom, callsFrom, hstep, isMarked_man hman, List.count_append,
    List.count_singleton, beq_false_of_ne hslash, parseBoard, putCalls]
  simp only [if_neg hslash, if_neg hplus, if_neg hdigit, (h.man hman).1, hs, hf, Bool.not_true,
    Bool.false_eq_true, if_false, if_true, Option.elim_some, Nat.add_zero]
  exact ⟨rfl, rfl⟩

/-- Where the loop does not get past a character, it stops. -/
theorem parseFrom_stop (hfit : CountersFit pre) (h : ¬ Passes pre ch) :
    parseFrom pre (ch :: rest) b =
      .error (if isManChar ch && !(PieceType.parse ch).isValid then .rejected else .undefined) := by
  by_cases hslash : ch = '/'
  · subst hslash
    have hr : ¬ fitsInt ((pre.count '/' : Int) + 1) = true := by
      intro hr
      refine h ⟨⟨?_, ?_⟩, fun hman => absurd hman (by decide)⟩
      · rwa [List.count_append, List.count_singleton_self, Nat.cast_add, Nat.cast_one]
      · rw [filesTaken_slash]
        rfl
    rw [parseFrom, parseBoard, if_pos rfl, if_neg hr]
    rfl
  have hcount : (pre ++ [ch]).count '/' = pre.count '/' := by
    rw [List.count_append, List.count_singleton, beq_false_of_ne hslash]
    rfl
  by_cases hplus : ch = '+'
  · subst hplus
    refine absurd ⟨⟨?_, ?_⟩, fun hman => absurd hman (by decide)⟩ h
    · rw [hcount]
      exact hfit.1
    · rw [filesTaken_snoc hslash]
      exact hfit.2
  have hcounters : fitsInt (8 - filesTaken (pre ++ [ch])) = true → CountersFit (pre ++ [ch]) :=
    fun hf => ⟨by rw [hcount]; exact hfit.1, hf⟩
  have hfiles : filesTaken (pre ++ [ch]) = filesTaken pre + filesOf ch := filesTaken_snoc hslash
  rw [filesOf, if_neg hplus] at hfiles
  rw [parseFrom, parseBoard, if_neg hslash, if_neg hplus]
  by_cases hdigit : '1' ≤ ch ∧ ch ≤ '9'
  · have hman : isManChar ch = false := by
      rw [← Bool.not_eq_true, isManChar_iff]
      exact fun hc => hc.2.2 hdigit
    rw [if_pos hdigit] at hfiles
    rw [if_pos hdigit, if_neg, hman]
    · rfl
    · intro hf
      refine h ⟨hcounters ?_, fun hc => absurd (hman.symm.trans hc) Bool.false_ne_true⟩
      rwa [hfiles, Nat.cast_add, ← Int.sub_sub]
  · have hman : isManChar ch = true := isManChar_iff.mpr ⟨hslash, hplus, hdigit⟩
    rw [if_neg hdigit] at hfiles
    simp only [if_neg hdigit, hman, Bool.true_and]
    cases hvalid : (PieceType.parse ch).isValid with
    | false => rfl
    | true =>
      simp only [Bool.not_true, Bool.false_eq_true, if_false]
      cases hs : squareOfInts (8 - filesTaken pre) (pre.count '/') with
      | none => rfl
      | some s =>
        dsimp only
        rw [if_neg]
        intro hf
        refine h ⟨hcounters ?_, fun _ => ⟨hvalid, by rw [hs]; rfl⟩⟩
        rwa [hfiles, Nat.cast_add, ← Int.sub_sub]

theorem loop_step (rest : List Char) (b : ShogiBoard) (h : Passes pre ch) :
    ∃ b₁, parseFrom pre (ch :: rest) b = parseFrom (pre ++ [ch]) rest b₁ := by
  cases hman : isManChar ch with
  | false => exact ⟨b, (loop_skip rest b hman h).1⟩
  | true =>
    obtain ⟨s, hs⟩ := Option.isSome_iff_exists.mp (h.man hman).2
    exact ⟨b.putPiece s (manAt pre ch), (loop_man rest b hman h hs).1⟩

theorem along_passes_of_ok (hfit : CountersFit pre) (h : parseFrom pre rest b = .ok b') :
    Along Passes pre rest := by
  induction rest generalizing pre b with
  | nil => exact along_nil
  | cons ch rest ih =>
    by_cases hp : Passes pre ch
    · obtain ⟨b₁, hb₁⟩ := loop_step rest b hp
      rw [hb₁] at h
      exact along_cons.mpr ⟨hp, ih hp.counters h⟩
    · rw [parseFrom_stop hfit hp] at h
      cases h

/-- The parser returns `false` at the first letter that stands for no man, if it gets there. -/
theorem parseFrom_rejected_iff (hfit : CountersFit pre) :
    parseFrom pre rest b = .error .rejected ↔ ∃ mid ch, mid ++ [ch] <+: rest ∧
      isManChar ch = true ∧ (PieceType.parse ch).isValid = false ∧ Along Passes pre mid := by
  induction rest generalizing pre b with
  | nil =>
    refine ⟨fun h => ?_, ?_⟩
    · cases h
    · rintro ⟨mid, ch, hbefore, -⟩
      simp at hbefore
  | cons x rest ih =>
    by_cases hp : Passes pre x
    · obtain ⟨b₁, hb₁⟩ := loop_step rest b hp
      rw [hb₁, ih hp.counters]
      constructor
      · rintro ⟨mid, ch, hbefore, hman, hvalid, halong⟩
        refine ⟨x :: mid, ch, ?_, hman, hvalid, along_cons.mpr ⟨hp, halong⟩⟩
        rwa [List.cons_append, List.cons_prefix_cons, and_iff_right rfl]
      · rintro ⟨mid, ch, hbefore, hman, hvalid, halong⟩
        cases mid with
        | nil =>
          rw [List.nil_append, List.cons_prefix_cons] at hbefore
          rw [hbefore.1, (hp.man (hbefore.1 ▸ hman)).1] at hvalid
          cases hvalid
        | cons y mid =>
          rw [List.cons_append, List.cons_prefix_cons] at hbefore
          obtain ⟨rfl, hbefore⟩ := hbefore
          exact ⟨mid, ch, hbefore, hman, hvalid, (along_cons.mp halong).2⟩
    · rw [parseFrom_stop hfit hp]
      constructor
      · intro h
        refine ⟨[], x, by simp, ?_⟩
        cases hman : isManChar x with
        | false =>
          rw [hman] at h
          cases h
        | true =>
          cases hvalid : (PieceType.parse x).isValid with
          | false => exact ⟨rfl, rfl, along_nil⟩
          | true =>
            rw [hman, hvalid] at h
            cases h
      · rintro ⟨mid, ch, hbefore, hman, hvalid, halong⟩
        cases mid with
        | nil =>
          rw [List.nil_append, List.cons_prefix_cons] at hbefore
          rw [← hbefore.1, hman, hvalid]
          rfl
        | cons y mid =>
          rw [List.cons_append, List.cons_prefix_cons] at hbefore
          exact absurd (hbefore.1 ▸ (along_cons.mp halong).1) hp

end Loop

end ShogiBoard

/-! ## Fields drawn in order -/

/-- The character after `pre` is in order: a letter stands for a man, on a square of the board, and
promotes where it is marked. -/
structure Drawn (pre : List Char) (ch : Char) : Prop where
  counters : CountersFit (pre ++ [ch])
  man : isManChar ch = true → (PieceType.parse ch).isValid = true ∧ filesTaken pre ≤ 8 ∧
    pre.count '/' ≤ 8 ∧ (isMarked pre = true → (PieceType.parse ch).canPromote = true)

/-- The letter of a king. -/
def kingLetter : Color → Char
  | .black => 'K'
  | .white => 'k'

/-- The kings of a colour on the board. -/
def ShogiBoard.kingsOn (b : ShogiBoard) (c : Color) : Nat :=
  (Finset.univ.filter fun s => b.board s = ⟨c, .king⟩).card

/-- Where the counters stand. -/
theorem squareOfInts_coord (s : Square) : squareOfInts s.file s.rank = some s := by
  have hf := s.file_lt
  have hr := s.rank_lt
  have h := squareOfInts_eq (show 1 ≤ s.file + 1 by omega) (by omega) hr
  rw [Nat.cast_add, Nat.cast_one, Int.add_sub_cancel, Nat.add_sub_cancel, ← s.val_eq] at h
  rw [h]
  exact congrArg some (Fin.ext (Nat.mod_eq_of_lt s.isLt))

section Drawn

variable {pre rest : List Char} {ch : Char} {b b' : ShogiBoard} {c : Color} {s : Square}

theorem exists_square (hf : filesTaken pre ≤ 8) (hr : pre.count '/' ≤ 8) :
    ∃ s : Square, (s.file : Int) = 8 - filesTaken pre ∧ s.rank = pre.count '/' ∧
      squareOfInts (8 - filesTaken pre) (pre.count '/') = some s := by
  have hs := squareOfInts_coord (.ofCoord (8 - filesTaken pre) (pre.count '/') (by omega) (by omega))
  rw [Square.file_ofCoord, Square.rank_ofCoord, Nat.cast_sub hf] at hs
  refine ⟨_, ?_, Square.rank_ofCoord _ _, hs⟩
  rw [Square.file_ofCoord, Nat.cast_sub hf]
  rfl

theorem Drawn.passes (h : Drawn pre ch) : Passes pre ch where
  counters := h.counters
  man hman := by
    obtain ⟨hvalid, hf, hr, -⟩ := h.man hman
    obtain ⟨s, -, -, hs⟩ := exists_square hf hr
    exact ⟨hvalid, by rw [hs]; rfl⟩

/-- The letters of the kings are no one else's. -/
theorem manAt_eq_king_iff (hvalid : (PieceType.parse ch).isValid = true)
    (hpromote : isMarked pre = true → (PieceType.parse ch).canPromote = true) :
    manAt pre ch = ⟨c, .king⟩ ↔ ch = kingLetter c := by
  have hking : PieceType.parse ch = .king ↔ ch = 'K' ∨ ch = 'k' := by
    constructor
    · intro h
      by_contra hne
      simp only [PieceType.parse, hne, if_false] at h
      split_ifs at h
    · rintro (rfl | rfl) <;> rfl
  have hpromoted : ∀ pt : PieceType, pt.canPromote = true → pt.promote ≠ .king ∧ pt ≠ .king := by
    decide
  have htype : (manAt pre ch).type = .king ↔ PieceType.parse ch = .king := by
    rw [manAt]
    split
    · rename_i hm
      obtain ⟨h1, h2⟩ := hpromoted _ (hpromote hm)
      exact iff_of_false h1 h2
    · rfl
  constructor
  · intro h
    have hcolor : colorOfLetter ch = c := congrArg Piece.color h
    obtain rfl | rfl := hking.mp (htype.mp (congrArg Piece.type h))
    · rw [← hcolor]
      rfl
    · rw [← hcolor]
      rfl
  · rintro rfl
    refine Piece.ext ?_ (htype.mpr (hking.mpr ?_))
    · cases c <;> rfl
    · cases c
      · exact .inl rfl
      · exact .inr rfl

theorem kingsOn_putPiece (hs : b.board s = .none) (q : Piece) :
    (b.putPiece s q).kingsOn c = b.kingsOn c + if q = ⟨c, .king⟩ then 1 else 0 := by
  have hboard : ∀ t, (b.putPiece s q).board t = if t = s then q else b.board t := fun t =>
    Function.update_apply ..
  have hnot : b.board s ≠ ⟨c, .king⟩ := by
    rw [hs]
    exact fun h => PieceType.noConfusion (congrArg Piece.type h)
  rw [ShogiBoard.kingsOn, ShogiBoard.kingsOn]
  split
  · rename_i hq
    subst hq
    rw [← Finset.card_insert_of_notMem (a := s) (by simpa using hnot)]
    congr 1
    ext t
    by_cases ht : t = s <;> simp [hboard, ht]
  · rename_i hq
    rw [Nat.add_zero]
    congr 1
    ext t
    by_cases ht : t = s <;> simp [hboard, ht, hq, hnot]

/-- Calls in order come from a field in order, and put all of its kings on the board. -/
theorem along_drawn_of_sound (hfit : CountersFit pre)
    (h : ShogiBoard.parseFrom pre rest b = .ok b')
    (hcalls : ∀ call ∈ ShogiBoard.callsFrom pre rest b, call.Sound) :
    Along Drawn pre rest ∧ ∀ c, b'.kingsOn c = b.kingsOn c + rest.count (kingLetter c) := by
  induction rest generalizing pre b with
  | nil =>
    cases h
    exact ⟨along_nil, fun c => rfl⟩
  | cons ch rest ih =>
    have hp := (along_cons.mp (ShogiBoard.along_passes_of_ok hfit h)).1
    cases hman : isManChar ch with
    | false =>
      obtain ⟨hparse, hput⟩ := ShogiBoard.loop_skip rest b hman hp
      rw [hparse] at h
      rw [hput] at hcalls
      obtain ⟨halong, hkings⟩ := ih hp.counters h hcalls
      refine ⟨along_cons.mpr ⟨⟨hp.counters, fun hc => ?_⟩, halong⟩, fun c => ?_⟩
      · exact absurd (hman.symm.trans hc) Bool.false_ne_true
      · have hne : ch ≠ kingLetter c := by
          rintro rfl
          cases c <;> exact absurd hman (by decide)
        rw [hkings, List.count_cons_of_ne hne]
    | true =>
      obtain ⟨s, hs⟩ := Option.isSome_iff_exists.mp (hp.man hman).2
      obtain ⟨hparse, hput⟩ := ShogiBoard.loop_man rest b hman hp hs
      rw [hparse] at h
      rw [hput] at hcalls
      have hsound := hcalls _ List.mem_cons_self
      obtain ⟨halong, hkings⟩ := ih hp.counters h fun call hcall =>
        hcalls call (List.mem_cons_of_mem _ hcall)
      obtain ⟨t, hf, hr, hempty⟩ := hsound.onEmpty
      have hts : t = s := by
        have ht := squareOfInts_coord t
        rw [hf, hr] at ht
        exact Option.some.inj (ht.symm.trans hs)
      have hfile : (t.file : Int) = 8 - filesTaken pre := hf
      have hrank : (t.rank : Int) = pre.count '/' := hr
      have htr := t.rank_lt
      refine ⟨along_cons.mpr ⟨⟨hp.counters, fun _ => ⟨(hp.man hman).1, by omega, by omega,
        hsound.promotable⟩⟩, halong⟩, fun c => ?_⟩
      rw [hkings, kingsOn_putPiece (hts ▸ hempty), List.count_cons]
      have hking := manAt_eq_king_iff (c := c) (hp.man hman).1 hsound.promotable
      simp only [hking, beq_iff_eq]
      omega

/-- The board between two characters: consistent, with all men on squares that the counters have
passed. -/
structure Filled (pre : List Char) (b : ShogiBoard) : Prop where
  consistent : b.Consistent
  behind : ∀ s, b.board s ≠ .none →
    s.rank < pre.count '/' ∨ s.rank = pre.count '/' ∧ 9 ≤ s.file + filesTaken pre

theorem Filled.skip (h : Filled pre b) : Filled (pre ++ [ch]) b := by
  refine ⟨h.consistent, fun s hs => ?_⟩
  rw [List.count_append]
  by_cases hslash : ch = '/'
  · subst hslash
    rw [List.count_singleton_self]
    have := h.behind s hs
    omega
  · rw [List.count_singleton, beq_false_of_ne hslash, filesTaken_snoc hslash]
    have := h.behind s hs
    simp only [Bool.false_eq_true, if_false]
    omega

theorem Filled.empty (h : Filled pre b) (hf : (s.file : Int) = 8 - filesTaken pre)
    (hr : s.rank = pre.count '/') : b.board s = .none := by
  by_contra hs
  have := h.behind s hs
  omega

theorem Filled.put (h : Filled pre b) (hman : isManChar ch = true) (hd : Drawn pre ch)
    (hking : (manAt pre ch).type = .king → b.kingSq (manAt pre ch).color = none)
    (hf : (s.file : Int) = 8 - filesTaken pre) (hr : s.rank = pre.count '/') :
    Filled (pre ++ [ch]) (b.putPiece s (manAt pre ch)) := by
  obtain ⟨hvalid, -, -, hpromote⟩ := hd.man hman
  have htype : (manAt pre ch).type.isValid = true := by
    rw [manAt]
    split
    · rename_i hm
      exact PieceType.isValid_promote (hpromote hm)
    · exact hvalid
  obtain ⟨hslash, hplus, hdigit⟩ := isManChar_iff.mp hman
  refine ⟨h.consistent.putPiece (h.empty hf hr) htype hking, fun t ht => ?_⟩
  rw [List.count_append, List.count_singleton, beq_false_of_ne hslash, filesTaken_snoc hslash,
    filesOf, if_neg hplus, if_neg hdigit]
  simp only [Bool.false_eq_true, if_false]
  by_cases hts : t = s
  · subst hts
    omega
  · have hold : (b.putPiece s (manAt pre ch)).board t = b.board t := Function.update_of_ne hts _ _
    rw [hold] at ht
    have := h.behind t ht
    omega

/-- A field in order is read to its end, by calls in order. -/
theorem sound_of_along_drawn (hdrawn : Along Drawn pre rest) (hb : Filled pre b)
    (hkings : ∀ c, b.kingsOn c + rest.count (kingLetter c) ≤ 1) :
    ∃ b', ShogiBoard.parseFrom pre rest b = .ok b' ∧ b'.Consistent ∧ b'.hand = b.hand ∧
      ∀ call ∈ ShogiBoard.callsFrom pre rest b, call.Sound := by
  induction rest generalizing pre b with
  | nil => exact ⟨b, rfl, hb.consistent, rfl, fun call h => by cases h⟩
  | cons ch rest ih =>
    obtain ⟨hd, hdrawn⟩ := along_cons.mp hdrawn
    cases hman : isManChar ch with
    | false =>
      obtain ⟨hparse, hput⟩ := ShogiBoard.loop_skip rest b hman hd.passes
      rw [hparse, hput]
      refine ih hdrawn hb.skip fun c => ?_
      have := hkings c
      rw [List.count_cons] at this
      omega
    | true =>
      obtain ⟨hvalid, hf, hr, hpromote⟩ := hd.man hman
      obtain ⟨s, hsf, hsr, hs⟩ := exists_square hf hr
      obtain ⟨hparse, hput⟩ := ShogiBoard.loop_man rest b hman hd.passes hs
      have hempty := hb.empty hsf hsr
      have hletter : ∀ c, manAt pre ch = ⟨c, .king⟩ ↔ ch = kingLetter c := fun c =>
        manAt_eq_king_iff hvalid hpromote
      have hking : (manAt pre ch).type = .king → b.kingSq (manAt pre ch).color = none := by
        intro hk
        have hch := (hletter _).mp (Piece.ext rfl hk)
        have hcount := hkings (manAt pre ch).color
        rw [← hch, List.count_cons_self] at hcount
        -- a king on the board would be the second one
        by_contra hne
        obtain ⟨u, hu⟩ := Option.ne_none_iff_exists'.mp hne
        have hpos : 0 < b.kingsOn (manAt pre ch).color :=
          Finset.card_pos.mpr ⟨u, by simpa using hb.consistent.king_board _ u hu⟩
        omega
      obtain ⟨b', hok, hcons, hhand, hcalls⟩ := ih hdrawn (hb.put hman hd hking hsf hsr) fun c => by
        have := hkings c
        rw [List.count_cons] at this
        rw [kingsOn_putPiece hempty]
        simp only [hletter, beq_iff_eq] at this ⊢
        omega
      rw [hparse, hput]
      refine ⟨b', hok, hcons, hhand, fun call hcall => ?_⟩
      obtain rfl | hcall := List.mem_cons.mp hcall
      · exact ⟨⟨s, hsf, by rw [hsr]; rfl, hempty⟩, hpromote⟩
      · exact hcalls call hcall

end Drawn

/-! ## The hand field -/

/-- The men of a type and a colour that the hand loop reads, after the number `count`. -/
def namedMen : List Char → Nat → Color → PieceType → Nat
  | [], _, _, _ => 0
  | ch :: rest, count, c, pt =>
    if '0' ≤ ch ∧ ch ≤ '9' then namedMen rest (count * 10 + digitValue ch) c pt
    else
      (if colorOfLetter ch = c ∧ PieceType.parse ch = pt then (if count = 0 then 1 else count)
        else 0) + namedMen rest 0 c pt

/-- No number of the hand field is out of range. -/
def numbersFit : List Char → Nat → Bool
  | [], _ => true
  | ch :: rest, count =>
    if '0' ≤ ch ∧ ch ≤ '9' then
      count * 10 + digitValue ch < 2147483648 && numbersFit rest (count * 10 + digitValue ch)
    else numbersFit rest 0

/-- Does a character of the hand field stand for a man that can be dropped? -/
def IsHandChar (ch : Char) : Prop :=
  '0' ≤ ch ∧ ch ≤ '9' ∨ (PieceType.parse ch).isHandPiece = true

/-- The characters that the hand loop reads. -/
def handLetters (handStr : List Char) : List Char := if handStr ≠ ['-'] then handStr else []

/-- A hand field in order: numbers and letters of men that can be dropped, with room for the men. -/
structure HandFieldFits (l : List Char) : Prop where
  letters : ∀ ch ∈ l, IsHandChar ch
  room : ∀ c pt, namedMen l 0 c pt < 2 ^ Hand.kWidth pt
  numbers : numbersFit l 0 = true

theorem Hand.count_add_iterate {h : Hand} {pt : PieceType} (hp : pt.isHandPiece = true) {n : Nat}
    (hroom : h.count pt + n < 2 ^ kWidth pt) (qt : PieceType) :
    ((Hand.add · pt)^[n] h).count qt = if qt = pt then h.count pt + n else h.count qt := by
  induction n generalizing qt with
  | zero =>
    split
    · rename_i e
      rw [e]
      rfl
    · rfl
  | succ n ih =>
    have hself := ih (by omega) pt
    rw [if_pos rfl] at hself
    rw [Function.iterate_succ_apply', count_add hp (by omega), hself, ih (by omega)]
    split
    · rfl
    · rfl

theorem Hand.Clean.add_iterate {h : Hand} (hc : h.Clean) {pt : PieceType} (hp : pt.isHandPiece = true)
    {n : Nat} (hroom : h.count pt + n < 2 ^ kWidth pt) : ((Hand.add · pt)^[n] h).Clean := by
  induction n with
  | zero => exact hc
  | succ n ih =>
    have hself := Hand.count_add_iterate (h := h) hp (n := n) (by omega) pt
    rw [if_pos rfl] at hself
    rw [Function.iterate_succ_apply']
    exact (ih (by omega)).add fun _ => by omega

section HandField

variable {l : List Char} {count : Nat} {b b' : ShogiBoard}

theorem numbersFit_of_parseHand (h : ShogiBoard.parseHand l count b = .ok b') :
    numbersFit l count = true := by
  induction l generalizing count b with
  | nil => rfl
  | cons ch l ih =>
    rw [ShogiBoard.parseHand] at h
    rw [numbersFit]
    split
    · rename_i hdigit
      rw [if_pos hdigit] at h
      dsimp only at h
      split at h
      · rename_i hlt
        rw [ih h, decide_eq_true hlt]
        rfl
      · cases h
    · rename_i hdigit
      rw [if_neg hdigit] at h
      exact ih h

/-- The hand loop has no way to return `false`. -/
theorem parseHand_ne_rejected :
    ShogiBoard.parseHand l count b ≠ .error .rejected := by
  intro h
  induction l generalizing count b with
  | nil => cases h
  | cons ch l ih =>
    rw [ShogiBoard.parseHand] at h
    split at h
    · dsimp only at h
      split at h
      · exact ih h
      · cases h
    · exact ih h

/-- The hand loop on men with room in the hands. -/
theorem parseHand_spec (hletters : ∀ ch ∈ l, IsHandChar ch) (hnumbers : numbersFit l count = true)
    (hroom : ∀ c pt, (b.hand c).count pt + namedMen l count c pt < 2 ^ Hand.kWidth pt) :
    ∃ b', ShogiBoard.parseHand l count b = .ok b' ∧
      (∀ c pt, (b'.hand c).count pt = (b.hand c).count pt + namedMen l count c pt) ∧
      ((∀ c, (b.hand c).Clean) → ∀ c, (b'.hand c).Clean) := by
  induction l generalizing count b with
  | nil => exact ⟨b, rfl, fun c pt => rfl, fun h => h⟩
  | cons ch l ih =>
    have hl : ∀ x ∈ l, IsHandChar x := fun x hx => hletters x (List.mem_cons_of_mem _ hx)
    rw [numbersFit] at hnumbers
    simp only [ShogiBoard.parseHand, namedMen] at hroom ⊢
    by_cases hdigit : '0' ≤ ch ∧ ch ≤ '9'
    · simp only [if_pos hdigit, Bool.and_eq_true, decide_eq_true_eq] at hnumbers hroom ⊢
      rw [if_pos hnumbers.1]
      exact ih hl hnumbers.2 hroom
    · simp only [if_neg hdigit] at hnumbers hroom ⊢
      have hp := (hletters ch List.mem_cons_self).resolve_left hdigit
      generalize hn : (if count = 0 then 1 else count) = n at hroom ⊢
      generalize hc : colorOfLetter ch = x at hroom ⊢
      generalize hpt : PieceType.parse ch = qt at hp hroom ⊢
      have hadd : ∀ c pt, ((b.setHand x ((Hand.add · qt)^[n] (b.hand x))).hand c).count pt =
          (b.hand c).count pt + if x = c ∧ qt = pt then n else 0 := by
        intro c pt
        have hx := hroom x qt
        rw [if_pos ⟨rfl, rfl⟩] at hx
        rw [ShogiBoard.setHand]
        dsimp only
        by_cases hcx : c = x
        · subst hcx
          rw [Function.update_self, Hand.count_add_iterate hp (by omega)]
          by_cases hpq : pt = qt
          · subst hpq
            rw [if_pos rfl, if_pos ⟨rfl, rfl⟩]
          · rw [if_neg hpq, if_neg fun h => hpq h.2.symm, Nat.add_zero]
        · rw [Function.update_of_ne hcx, if_neg fun h => hcx h.1.symm, Nat.add_zero]
      obtain ⟨b', hok, hcounts, hclean⟩ := @ih 0 (b.setHand x ((Hand.add · qt)^[n] (b.hand x))) hl
        hnumbers fun c pt => by
          rw [hadd, Nat.add_assoc]
          exact hroom c pt
      refine ⟨b', hok, fun c pt => ?_, fun h => hclean fun c => ?_⟩
      · rw [hcounts, hadd, Nat.add_assoc]
      · have hx := hroom x qt
        rw [if_pos ⟨rfl, rfl⟩] at hx
        rw [ShogiBoard.setHand]
        dsimp only
        by_cases hcx : c = x
        · subst hcx
          rw [Function.update_self]
          exact (h c).add_iterate hp (by omega)
        · rw [Function.update_of_ne hcx]
          exact h c

end HandField

/-! ## Safety -/

/-- The board field and the hand field. -/
def boardField (sfen : List Char) : List Char := (nextToken sfen).1

def handField (sfen : List Char) : List Char :=
  (nextToken (nextToken (nextToken sfen).2).2).1

/-- What a safe parser sets up: a consistent board with at most one king a side, by calls of
`PutPiece` in order, and with the men in hand that the hand field names. -/
structure SetUpFrom (boardStr handStr : List Char) (b : ShogiBoard) : Prop where
  calls : ∀ call ∈ ShogiBoard.putCalls boardStr 8 0 false .new, call.Sound
  consistent : b.Consistent
  kings : ∀ c s t, b.board s = ⟨c, .king⟩ → b.board t = ⟨c, .king⟩ → s = t
  handLetters : ∀ ch ∈ handLetters handStr, IsHandChar ch
  hands : ∀ c pt, (b.hand c).count pt = namedMen (Shogi.handLetters handStr) 0 c pt

/-- The parser returns `false` or sets up a sound board. -/
def SfenSafe (sfen : List Char) : Prop :=
  ShogiBoard.setFromSfen sfen = .error .rejected ∨
    ∃ b, ShogiBoard.setFromSfen sfen = .ok b ∧ SetUpFrom (boardField sfen) (handField sfen) b

/-- Up to its first letter that stands for no man, the board field keeps the counters in range and
all stores inside the mailbox. -/
def StopsInside (boardStr : List Char) : Prop :=
  ∃ pre ch, pre ++ [ch] <+: boardStr ∧ isManChar ch = true ∧
    (PieceType.parse ch).isValid = false ∧ Along Passes [] pre

/-- A board field in order. -/
structure BoardFieldDrawn (boardStr : List Char) : Prop where
  drawn : Along Drawn [] boardStr
  kings : ∀ c, boardStr.count (kingLetter c) ≤ 1

section Safe

variable {boardStr sideStr handStr plyStr : List Char} {b b' : ShogiBoard} {c : Color}

theorem countersFit_nil : CountersFit [] := ⟨rfl, rfl⟩

theorem parseHands_eq : ShogiBoard.parseHands handStr b =
    ShogiBoard.parseHand (handLetters handStr) 0 b := by
  rw [ShogiBoard.parseHands, handLetters]
  split
  · rfl
  · rfl

/-- The parser by its two loops. -/
theorem setFromFields_rejected_iff :
    ShogiBoard.setFromFields boardStr sideStr handStr plyStr = .error .rejected ↔
      ShogiBoard.parseFrom [] boardStr .new = .error .rejected := by
  have hfrom : ShogiBoard.parseFrom [] boardStr .new =
      ShogiBoard.parseBoard boardStr 8 0 false .new := rfl
  rw [hfrom, ShogiBoard.setFromFields]
  cases ShogiBoard.parseBoard boardStr 8 0 false .new with
  | error e => rfl
  | ok b =>
    refine ⟨fun h => ?_, fun h => by cases h⟩
    simp only [parseHands_eq] at h
    cases hh : ShogiBoard.parseHand (handLetters handStr) 0
      { b with sideToMove := if sideStr = ['w'] then .white else .black } with
    | error e =>
      simp only [bind, Except.bind, hh] at h
      cases h
      exact absurd hh parseHand_ne_rejected
    | ok b₂ =>
      simp only [bind, Except.bind, hh] at h
      cases h

theorem setFromFields_ok_iff :
    ShogiBoard.setFromFields boardStr sideStr handStr plyStr = .ok b' ↔
      ∃ b₁ b₂, ShogiBoard.parseFrom [] boardStr .new = .ok b₁ ∧
        ShogiBoard.parseHand (handLetters handStr) 0
          { b₁ with sideToMove := if sideStr = ['w'] then .white else .black } = .ok b₂ ∧
        ({ b₂ with ply := if plyStr.isEmpty then 1 else (stoi plyStr).getD 1 } :
          ShogiBoard).computeHash.clearHistory = b' := by
  have hfrom : ShogiBoard.parseFrom [] boardStr .new =
      ShogiBoard.parseBoard boardStr 8 0 false .new := rfl
  rw [hfrom, ShogiBoard.setFromFields]
  cases ShogiBoard.parseBoard boardStr 8 0 false .new with
  | error e =>
    constructor
    · intro h
      cases h
    · rintro ⟨b₁, b₂, h, -⟩
      cases h
  | ok b₁ =>
    simp only [parseHands_eq]
    cases hh : ShogiBoard.parseHand (handLetters handStr) 0
      { b₁ with sideToMove := if sideStr = ['w'] then .white else .black } with
    | error e =>
      constructor
      · intro h
        simp only [bind, Except.bind, hh] at h
        cases h
      · rintro ⟨x, y, hx, hy, -⟩
        cases hx
        rw [hh] at hy
        cases hy
    | ok b₂ =>
      constructor
      · intro h
        simp only [bind, Except.bind, hh] at h
        exact ⟨b₁, b₂, rfl, hh, Except.ok.inj h⟩
      · rintro ⟨x, y, hx, hy, rfl⟩
        cases hx
        rw [hh] at hy
        cases hy
        simp only [bind, Except.bind, hh]

theorem kingsOn_new (c : Color) : ShogiBoard.new.kingsOn c = 0 := by
  rw [ShogiBoard.kingsOn, Finset.card_eq_zero, Finset.filter_eq_empty_iff]
  exact fun s _ h => PieceType.noConfusion (congrArg Piece.type h)

theorem filled_new : Filled [] .new where
  consistent := ShogiBoard.consistent_new
  behind _ h := absurd rfl h

theorem kingsOn_le_one (h : ∀ s t, b.board s = ⟨c, .king⟩ → b.board t = ⟨c, .king⟩ → s = t) :
    b.kingsOn c ≤ 1 := by
  rw [ShogiBoard.kingsOn, Finset.card_le_one]
  intro s hs t ht
  exact h s t (by simpa using hs) (by simpa using ht)

/-- A set-up that is sound comes from fields in order. -/
theorem fields_of_setUpFrom (h : ShogiBoard.setFromFields boardStr sideStr handStr plyStr = .ok b)
    (hsound : SetUpFrom boardStr handStr b) :
    BoardFieldDrawn boardStr ∧ HandFieldFits (handLetters handStr) := by
  obtain ⟨b₁, b₂, hboard, hhand, rfl⟩ := setFromFields_ok_iff.mp h
  obtain ⟨hdrawn, hkings⟩ := along_drawn_of_sound countersFit_nil hboard hsound.calls
  have hsame : ∀ s, b₂.board s = b₁.board s := fun s => by
    rw [ShogiBoard.parseHand_eq hhand]
  refine ⟨⟨hdrawn, fun c => ?_⟩, hsound.handLetters, fun c pt => ?_,
    numbersFit_of_parseHand hhand⟩
  · have hle : b₁.kingsOn c ≤ 1 := kingsOn_le_one fun s t hs ht =>
      hsound.kings c s t ((hsame s).trans hs) ((hsame t).trans ht)
    rw [hkings, kingsOn_new, Nat.zero_add] at hle
    exact hle
  · rw [← hsound.hands]
    exact Hand.count_lt _ _

/-- Fields in order set up a sound board. -/
theorem setUpFrom_of_fields (hboard : BoardFieldDrawn boardStr)
    (hhand : HandFieldFits (handLetters handStr)) :
    ∃ b, ShogiBoard.setFromFields boardStr sideStr handStr plyStr = .ok b ∧
      SetUpFrom boardStr handStr b := by
  obtain ⟨b₁, hok₁, hcons, hempty, hcalls⟩ := sound_of_along_drawn hboard.drawn filled_new fun c => by
    rw [kingsOn_new, Nat.zero_add]
    exact hboard.kings c
  have hcount : ∀ c pt, (b₁.hand c).count pt = 0 := by
    intro c pt
    rw [hempty]
    change Hand.empty.count pt = 0
    cases pt <;> decide
  obtain ⟨b₂, hok₂, hcounts, -⟩ := @parseHand_spec _ 0
    { b₁ with sideToMove := if sideStr = ['w'] then .white else .black } hhand.letters hhand.numbers
    fun c pt => by
      rw [hcount, Nat.zero_add]
      exact hhand.room c pt
  have hcons₂ : b₂.Consistent := by
    rw [ShogiBoard.parseHand_eq hok₂]
    exact hcons.congr rfl rfl rfl rfl
  refine ⟨_, setFromFields_ok_iff.mpr ⟨b₁, b₂, hok₁, hok₂, rfl⟩, hcalls,
    hcons₂.congr rfl rfl rfl rfl, fun c s t hs ht => ?_, hhand.letters, fun c pt => ?_⟩
  · have hs' := hcons₂.king_sq c s hs
    rw [hcons₂.king_sq c t ht] at hs'
    exact (Option.some.inj hs').symm
  · exact (hcounts c pt).trans (by rw [hcount, Nat.zero_add])

/-- The parser is safe on the strings whose board and hand fields are in order, and on those whose
board field makes it return `false` before it has left the mailbox. -/
theorem sfenSafe_iff (sfen : List Char) : SfenSafe sfen ↔ StopsInside (boardField sfen) ∨
    BoardFieldDrawn (boardField sfen) ∧ HandFieldFits (handLetters (handField sfen)) := by
  have hfields : ShogiBoard.setFromSfen sfen = ShogiBoard.setFromFields (boardField sfen)
      (nextToken (nextToken sfen).2).1 (handField sfen)
      (nextToken (nextToken (nextToken (nextToken sfen).2).2).2).1 := rfl
  have hstop : ShogiBoard.setFromSfen sfen = .error .rejected ↔ StopsInside (boardField sfen) := by
    rw [hfields, setFromFields_rejected_iff, ShogiBoard.parseFrom_rejected_iff countersFit_nil]
    rfl
  rw [SfenSafe, hstop]
  refine or_congr_right ⟨?_, fun h => ?_⟩
  · rintro ⟨b, hok, hsound⟩
    exact fields_of_setUpFrom (hfields ▸ hok) hsound
  · rw [hfields]
    exact setUpFrom_of_fields h.1 h.2

/-- A tenth man on a rank is stored outside the mailbox. -/
theorem not_sfenSafe_tenPawns : ¬ ∀ sfen, SfenSafe sfen := by
  intro h
  have hrun : ShogiBoard.setFromSfen "PPPPPPPPPP b - 1".toList = .error .undefined := rfl
  rcases h "PPPPPPPPPP b - 1".toList with hrej | ⟨b, hok, -⟩
  · rw [hrun] at hrej
    cases hrej
  · rw [hrun] at hok
    cases hok

end Safe

end Shogi
