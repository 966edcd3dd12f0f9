import ShogiEngine.Book.GoteBookGenerator
import ShogiEngine.Shogi.Evasions
import ShogiEngine.Shogi.PackedRoundTrip

/-!
# The graph of a source book

What the graph says about a source book whose index is in order and whose moves are legal.

## Main definitions

- `MappedYbb.WellFormed`, `MappedYbb.Canonical`, `MappedYbb.Fits`: conditions on the source book
- `MappedYbb.Leads`: a stored move leads to a position of the book
- `Resolved`: what the graph says about a stored move

## Main results

- `validateAndIndex_spec`: each position is found under its key
- `resolveChildren_spec`: each stored move is resolved
- `exists_solved`: the generator has a solution, whose distances guide the players
-/

namespace Shogi

namespace GoteBook

open GoteExit

namespace MappedYbb

variable (book : MappedYbb)

/-! ## What a source book holds -/

/-- The key of a position. -/
def key (n : Nat) : PackedSfen := (book.entryAt n).packedSfen

/-- The number of moves of a position. -/
def count (n : Nat) : Nat := (book.entryAt n).moveCount.toNat

/-- A stored move. -/
def record (n l : Nat) : YbbMoveRecord :=
  decodeYbbMoveRecord (book.contents.drop
    (book.movesBase + ((book.entryAt n).movesOffset.toNat + l * book.moveRecordSize))) book.flags

/-- The evaluation of a stored move. -/
def eval (n l : Nat) : Int := (book.record n l).eval.toInt

/-- A position on the board. -/
def board (n : Nat) : Option ShogiBoard :=
  ShogiBoard.setFromPackedSfen (book.key n) (book.entryAt n).ply.toNat

/-- The key of the position after a stored move. -/
def childKey (n l : Nat) : Option PackedSfen :=
  (book.board n).bind fun b =>
    (b.doMove (.fromRaw (book.record n l).move)).toPackedSfen.map PackedSfen.BitWriter.packed

/-- A stored move leads to position `c` of the book. -/
def Leads (n l c : Nat) : Prop := c < book.recordCount ∧ book.childKey n l = some (book.key c)

/-- How many stored moves lead to a position. -/
def arrivals (c : Nat) : Nat :=
  ((List.range book.recordCount).map fun n =>
    (List.range (book.count n)).countP fun l => decide (book.childKey n l = some (book.key c))).sum

/-- The index is strictly sorted, the moves are contiguous and fill the file, and every stored move is
legal at its position. -/
structure WellFormed : Prop where
  sorted : ∀ i j, i < j → j < book.recordCount → comparePackedSfen (book.key i) (book.key j) = .lt
  contiguous : ∀ i < book.recordCount, (book.entryAt i).movesOffset.toNat =
    PrefixSums.before (fun j => book.count j * book.moveRecordSize) i
  complete : book.movesBase + PrefixSums.before (fun j => book.count j * book.moveRecordSize)
    book.recordCount = book.contents.length
  legal : ∀ i < book.recordCount, ∃ b, book.board i = some b ∧
    ∀ l < book.count i, ∃ m ∈ b.generateLegalMoves, m.raw = (book.record i l).move

/-- The keys are those that the engine writes for their positions, and nowhere can a king be captured. -/
structure Canonical : Prop where
  key_eq : ∀ i < book.recordCount, ∀ b, book.board i = some b →
    b.toPackedSfen.map PackedSfen.BitWriter.packed = some (book.key i)
  safe : ∀ i < book.recordCount, ∀ b, book.board i = some b → b.inCheck (~~~b.sideToMove) = false

/-- Positions and moves can be counted with 32 bits. -/
structure Fits : Prop where
  nodes : book.recordCount < kExitDisallowed
  arrivals : ∀ c, book.arrivals c ≤ uint32Max

end MappedYbb

/-- What the graph says about a stored move: it is not allowed, or it leaves the book, or it leads to
a position of the book. -/
def Resolved (options : Options) (book : MappedYbb) (n l v : Nat) : Prop :=
  (v = kExitDisallowed ∧ isGote (book.key n) = true ∧
      ∃ l' < book.count n, book.eval n l < book.eval n l' - options.evalMargin) ∨
    (isGote (book.key n) = true → ∀ l' < book.count n,
        book.eval n l' - options.evalMargin ≤ book.eval n l) ∧
      (v = kExitLeaf ∧ (∀ c, ¬ book.Leads n l c) ∨ book.Leads n l v)

/-! ## Files -/

section Files

variable {book : MappedYbb} {path : String} {contents : List (BitVec 8)} {n l : Nat}

/-- What is known of a book that could be mapped. -/
structure Mapped (book : MappedYbb) : Prop where
  small : book.contents.length < fileSizeLimit
  base : book.movesBase ≤ book.contents.length

/-- A guard that did not throw. -/
theorem of_guard {α : Type} {c : Prop} [Decidable c] {e : Failure} {x : Except Failure α} {a : α}
    (h : (if c then .error e else x) = .ok a) : ¬ c ∧ x = .ok a := by
  split at h
  · cases h
  next hc => exact ⟨hc, h⟩

theorem mapped_of_ofFile (h : MappedYbb.ofFile path contents = .ok book) : Mapped book := by
  obtain ⟨hsmall, h⟩ := of_guard h
  obtain ⟨-, h⟩ := of_guard h
  obtain ⟨-, h⟩ := of_guard h
  obtain ⟨-, h⟩ := of_guard h
  cases hindex : ybbIndexSize (readLe64 (contents.drop 16)).toNat with
  | none =>
    rw [hindex] at h
    cases h
  | some movesBase =>
    rw [hindex] at h
    obtain ⟨hbase, h⟩ := of_guard h
    cases h
    exact ⟨not_le.mp hsmall, not_lt.mp hbase⟩

theorem moveRecordSize_pos : 0 < book.moveRecordSize := by
  rw [MappedYbb.moveRecordSize, ybbMoveRecordSize]
  split <;> decide

theorem before_mul (size : Nat → Nat) (k i : Nat) :
    PrefixSums.before (fun j => size j * k) i = PrefixSums.before size i * k := by
  induction i with
  | zero => rw [PrefixSums.before, PrefixSums.before, Nat.zero_mul]
  | succ i ih => rw [PrefixSums.before, PrefixSums.before, ih, Nat.add_mul]

/-- Every stored move can be read. -/
theorem moveAt_eq (hmap : Mapped book) (hwf : book.WellFormed) (hn : n < book.recordCount)
    (hl : l < book.count n) : book.moveAt (book.entryAt n) l = .ok (book.record n l) := by
  have hoffset := hwf.contiguous n hn
  have hend : PrefixSums.before (fun j => book.count j * book.moveRecordSize) n +
      book.count n * book.moveRecordSize ≤ _ := PrefixSums.before_add_le hn
  have hplace : (l + 1) * book.moveRecordSize ≤ book.count n * book.moveRecordSize :=
    Nat.mul_le_mul_right _ hl
  have hcomplete := hwf.complete
  have hsmall : book.contents.length < 2 ^ 63 := hmap.small
  rw [Nat.succ_mul] at hplace
  have hmod : ((book.entryAt n).movesOffset.toNat + l * book.moveRecordSize) % 2 ^ 64 =
      (book.entryAt n).movesOffset.toNat + l * book.moveRecordSize := Nat.mod_eq_of_lt (by omega)
  have hcount : ¬ (book.entryAt n).moveCount.toNat ≤ l := not_le.mpr hl
  rw [MappedYbb.moveAt, if_neg hcount, hmod]
  exact if_neg (by omega)

theorem entry_eq (hn : n < book.recordCount) : book.entry n = .ok (book.entryAt n) :=
  if_neg (not_le.mpr hn)

theorem key_inj (hwf : book.WellFormed) {i j : Nat} (hi : i < book.recordCount)
    (hj : j < book.recordCount) (h : book.key i = book.key j) : i = j := by
  have hno : ∀ i j, i < j → j < book.recordCount → book.key i ≠ book.key j := by
    intro i j hij hj he
    have hlt := hwf.sorted i j hij hj
    rw [comparePackedSfen_eq, he, compare_lt_iff_lt] at hlt
    exact lt_irrefl _ hlt
  rcases lt_trichotomy i j with hlt | heq | hlt
  · exact absurd h (hno i j hlt hj)
  · exact heq
  · exact absurd h.symm (hno j i hlt hi)

/-- A loop over the first numbers whose passes do not fail. -/
theorem foldlM_range {σ : Type} {f : σ → Nat → Except Failure σ} {I : Nat → σ → Prop} {n : Nat} {s : σ}
    (hs : I 0 s) (hstep : ∀ i < n, ∀ s, I i s → ∃ s', f s i = .ok s' ∧ I (i + 1) s') :
    ∃ s', (List.range n).foldlM f s = .ok s' ∧ I n s' := by
  induction n with
  | zero => exact ⟨s, rfl, hs⟩
  | succ n ih =>
    obtain ⟨t, ht, hI⟩ := ih fun i hi => hstep i (Nat.lt_succ_of_lt hi)
    obtain ⟨s', hs', hI'⟩ := hstep n (Nat.lt_succ_self n) t hI
    refine ⟨s', ?_, hI'⟩
    rw [List.range_succ, List.foldlM_append, ht]
    show List.foldlM f t [n] = _
    rw [List.foldlM_cons, hs']
    rfl

end Files

/-! ## The index -/

section Index

variable {book : MappedYbb} {options : Options} {prepared : PreparedBook} {n l v i : Nat}

/-- What the loop of `ValidateAndIndex` knows after `i` records. -/
structure Indexed (book : MappedYbb) (i : Nat) (st : Scan) : Prop where
  offset : st.expectedOffset = PrefixSums.before (fun j => book.count j * book.moveRecordSize) i
  previous : ∀ p, st.previous = some p → ∃ j, i = j + 1 ∧ p = book.key j
  moveCount : st.moveCount = PrefixSums.before book.count i
  found : ∀ j < i, st.positions (book.key j) = some j
  only : ∀ p c, st.positions p = some c → c < i ∧ p = book.key c

theorem checkRecord_spec (hwf : book.WellFormed) (hi : i < book.recordCount) {st : Scan}
    (h : Indexed book i st) :
    ∃ st', checkRecord book book.recordCount st i = .ok st' ∧ Indexed book (i + 1) st' := by
  have hnew : st.positions (book.key i) = none := by
    cases hp : st.positions (book.key i) with
    | none => rfl
    | some c =>
      obtain ⟨hc, heq⟩ := h.only _ _ hp
      exact absurd (key_inj hwf hi (hc.trans hi) heq) hc.ne'
  have hsorted : (st.previous.any fun p =>
      decide (comparePackedSfen p (book.entryAt i).packedSfen ≠ .lt)) = false := by
    cases hp : st.previous with
    | none => rfl
    | some p =>
      obtain ⟨j, rfl, rfl⟩ := h.previous p hp
      rw [Option.any_some, decide_eq_false_iff_not, not_not]
      exact hwf.sorted j (j + 1) (Nat.lt_succ_self j) hi
  have hoffset : (book.entryAt i).movesOffset.toNat = st.expectedOffset :=
    (hwf.contiguous i hi).trans h.offset.symm
  have hend : PrefixSums.before (fun j => book.count j * book.moveRecordSize) i +
      book.count i * book.moveRecordSize ≤ _ := PrefixSums.before_add_le hi
  have hcomplete := hwf.complete
  have harea : ¬ (book.contents.length - book.movesBase < st.expectedOffset ∨
      book.contents.length - book.movesBase - st.expectedOffset <
        (book.entryAt i).moveCount.toNat * book.moveRecordSize) := by
    have hcount : book.count i * book.moveRecordSize =
      (book.entryAt i).moveCount.toNat * book.moveRecordSize := rfl
    rw [h.offset]
    omega
  refine ⟨⟨st.expectedOffset + book.count i * book.moveRecordSize, some (book.key i),
    st.moveCount + book.count i, Function.update st.positions (book.key i) (some i)⟩, ?_, ?_⟩
  · rw [checkRecord, entry_eq hi]
    simp only [Except.bind, hsorted, Bool.false_eq_true, if_false, hoffset, ne_eq, not_true,
      if_neg harea, if_pos hi]
    exact if_neg (by rw [show st.positions (book.entryAt i).packedSfen = none from hnew]; decide)
  · constructor
    · show _ = PrefixSums.before _ i + _
      rw [← h.offset]
    · intro p hp
      exact ⟨i, rfl, (Option.some.inj hp).symm⟩
    · show _ = PrefixSums.before _ i + _
      rw [← h.moveCount]
    · intro j hj
      show Function.update st.positions (book.key i) (some i) (book.key j) = some j
      rw [Function.update_apply]
      split
      next he => rw [key_inj hwf (by omega) hi he]
      next hne => exact h.found j (by by_contra hge; exact hne (by rw [show j = i by omega]))
    · intro p c hp
      have hp : Function.update st.positions (book.key i) (some i) p = some c := hp
      rw [Function.update_apply] at hp
      split at hp
      next he =>
        cases Option.some.inj hp
        exact ⟨Nat.lt_succ_self i, he⟩
      next =>
        obtain ⟨hc, heq⟩ := h.only p c hp
        exact ⟨Nat.lt_succ_of_lt hc, heq⟩

/-- What `ValidateAndIndex` returns. -/
structure Prepared (book : MappedYbb) (prepared : PreparedBook) : Prop where
  nodeCount : prepared.nodeCount = book.recordCount
  moveCount : prepared.moveCount = PrefixSums.before book.count book.recordCount
  found : ∀ c < book.recordCount, prepared.positions (book.key c) = some c
  only : ∀ p c, prepared.positions p = some c → c < book.recordCount ∧ p = book.key c

/-- Each position is found under its key. -/
theorem validateAndIndex_spec (hmap : Mapped book) (hwf : book.WellFormed)
    (hnodes : book.recordCount < kExitDisallowed) :
    ∃ prepared, validateAndIndex book 0 = .ok prepared ∧ Prepared book prepared := by
  obtain ⟨st, hloop, hst⟩ := foldlM_range (f := checkRecord book book.recordCount)
    (I := Indexed book) (n := book.recordCount) (s := ⟨0, none, 0, fun _ => none⟩)
    ⟨rfl, fun _ hp => absurd hp (Option.some_ne_none _).symm, rfl,
      fun _ hj => absurd hj (Nat.not_lt_zero _), fun _ _ hp => absurd hp (Option.some_ne_none _).symm⟩ fun i hi st h => checkRecord_spec hwf hi h
  have hselected : selectedCount book 0 = book.recordCount := rfl
  have hend : book.movesBase + st.expectedOffset = book.contents.length := by
    rw [hst.offset]
    exact hwf.complete
  have hmoves : st.moveCount ≤ 2 ^ 64 - 1 := by
    have hmul := before_mul book.count book.moveRecordSize book.recordCount
    have hle : PrefixSums.before book.count book.recordCount * 1 ≤
        PrefixSums.before book.count book.recordCount * book.moveRecordSize :=
      Nat.mul_le_mul_left _ moveRecordSize_pos
    have hcomplete := hwf.complete
    have hsmall : book.contents.length < 2 ^ 63 := hmap.small
    rw [hst.moveCount]
    omega
  refine ⟨⟨book.recordCount, st.moveCount, st.positions⟩, ?_, rfl, hst.moveCount, hst.found, hst.only⟩
  rw [validateAndIndex, if_neg (not_le.mpr hnodes), hselected, hloop]
  simp only [Except.bind, hend, ne_eq, not_true, if_false]
  exact if_neg (not_lt.mpr hmoves)

end Index

/-! ## Stored moves -/

section Moves

variable {b : ShogiBoard} {m : Move} {book : MappedYbb} {options : Options} {prepared : PreparedBook}
  {n l v i : Nat}

/-- The word of a playable move is plausible. -/
theorem plausible_of_canPlay (h : b.CanPlay m) : plausibleMove m.raw = true := by
  obtain ⟨hdst, hother, hdrop, hpromote⟩ := m.raw_fields
  have hlt : ¬ 81 ≤ m.dst.val := not_le.mpr m.dst.isLt
  -- only the word of the move from square 0 to itself is zero
  have hzero : m.raw = 0#16 → m.isDrop = false ∧ m.dst.val = 0 ∧ m.other = 0 := by
    intro hz
    rw [hz] at hdst hother hdrop
    exact ⟨hdrop.mp (by decide), hdst.symm, hother.symm⟩
  have hboard : ∀ s t : Square, s ≠ t → m.dst = t → m.other = s.val → m.isDrop = false →
      plausibleMove m.raw = true := by
    intro s t hne ht hs hd
    have hval : s.val ≠ t.val := fun he => hne (Fin.ext he)
    have hnz : m.raw ≠ 0#16 := by
      intro hz
      obtain ⟨-, h0, h1⟩ := hzero hz
      rw [ht] at h0
      omega
    rw [plausibleMove, if_neg hnz]
    simp only [hdst, hother]
    rw [if_neg hlt, if_neg (not_not.mpr (hdrop.mpr hd)), hs, ht]
    simp only [s.isLt, decide_true, Bool.true_and, bne_iff_ne, ne_eq, hval, not_false_eq_true]
  cases m with
  | normal s t => exact hboard s t h.ne rfl rfl rfl
  | promotion s t => exact hboard s t h.ne rfl rfl rfl
  | drop pt t =>
    have hd : ¬ ((Move.drop pt t).raw &&& Move.kDropFlag = 0#16) := fun he => by cases hdrop.mp he
    have hnz : (Move.drop pt t).raw ≠ 0#16 := fun hz => by cases (hzero hz).1
    have hp : (Move.drop pt t).raw &&& Move.kPromoteFlag = 0#16 := hpromote.mpr rfl
    have hpt : 1 ≤ pt.idx ∧ pt.idx ≤ 7 := by
      have := h.2
      rw [PieceType.isHandPiece, Bool.and_eq_true, decide_eq_true_eq, decide_eq_true_eq] at this
      exact this
    rw [plausibleMove, if_neg hnz]
    simp only [hdst, hother]
    rw [if_neg hlt, if_pos hd, hp]
    simp only [Move.other, hpt.1, hpt.2, decide_true, beq_self_eq_true, Bool.and_true]

/-- The position after a legal move can be written again, if the one before can. -/
theorem isSome_toPackedSfen_doMove (hb : b.Consistent) (hpacked : b.toPackedSfen.isSome = true)
    (hsafe : b.inCheck (~~~b.sideToMove) = false) (hm : m ∈ b.generateLegalMoves) :
    (b.doMove m).toPackedSfen.isSome = true := by
  obtain ⟨hk, htotal⟩ := (ShogiBoard.isSome_toPackedSfen_iff hb).mp hpacked
  have ha : b.position.Allowed m := ((ShogiBoard.mem_generateLegalMoves hb hk).mp hm).allowed
  have hopp : ¬ b.position.InCheck (~~~b.sideToMove) := by
    rw [← hb.inCheck_iff hk, hsafe]
    exact Bool.false_ne_true
  have hking := ShogiBoard.not_captures_king hopp ha
  refine (ShogiBoard.isSome_toPackedSfen_iff (ShogiBoard.consistent_doMoveInternal hb
    (ShogiBoard.canPlay_of_allowed ha) hking)).mpr ⟨hk.doMoveInternal, fun pt hpt => ?_⟩
  exact (ShogiBoard.total_doMove_of_total_le htotal hb.toAgree hking ha pt).trans_le (htotal pt hpt)

/-- A stored move: it is plausible, and the position after it has a key. -/
structure Playable (book : MappedYbb) (b : ShogiBoard) (n l : Nat) : Prop where
  board : book.board n = some b
  shape : plausibleMove (book.record n l).move = true
  legal : ∃ m ∈ b.generateLegalMoves, m.raw = (book.record n l).move
  packed : (b.doMove (.fromRaw (book.record n l).move)).toPackedSfen.isSome = true

theorem exists_playable (hwf : book.WellFormed) (hcanon : book.Canonical) (hn : n < book.recordCount) :
    ∃ b, book.board n = some b ∧ ∀ l < book.count n, Playable book b n l := by
  obtain ⟨b, hboard, hlegal⟩ := hwf.legal n hn
  refine ⟨b, hboard, fun l hl => ?_⟩
  obtain ⟨m, hm, hraw⟩ := hlegal l hl
  have hb : b.Consistent := (ShogiBoard.fresh_of_setFromPackedSfen hboard).consistent
  have hpacked : b.toPackedSfen.isSome = true := by
    have hkey := hcanon.key_eq n hn b hboard
    rw [Option.map_eq_some_iff] at hkey
    obtain ⟨w, hw, -⟩ := hkey
    exact Option.isSome_iff_exists.mpr ⟨w, hw⟩
  obtain ⟨hk, -⟩ := (ShogiBoard.isSome_toPackedSfen_iff hb).mp hpacked
  have ha : b.position.Allowed m := ((ShogiBoard.mem_generateLegalMoves hb hk).mp hm).allowed
  refine ⟨hboard, hraw ▸ plausible_of_canPlay (ShogiBoard.canPlay_of_allowed ha), ⟨m, hm, hraw⟩, ?_⟩
  rw [← hraw, Move.fromRaw_raw]
  exact isSome_toPackedSfen_doMove hb hpacked (hcanon.safe n hn b hboard) hm

/-- The best evaluation of the stored moves. -/
theorem bestEval_spec (hmap : Mapped book) (hwf : book.WellFormed) (hn : n < book.recordCount)
    (hshape : ∀ l < book.count n, plausibleMove (book.record n l).move = true) :
    ∃ best, bestEval book (book.entryAt n) = .ok best ∧ (∀ l < book.count n, book.eval n l ≤ best) ∧
      (0 < book.count n → ∃ l < book.count n, best = book.eval n l) := by
  refine foldlM_range (I := fun i best => (∀ l < i, book.eval n l ≤ best) ∧
    (0 < i → ∃ l < i, best = book.eval n l) ∧ (i = 0 → best = intMin))
    ⟨fun l hl => absurd hl (Nat.not_lt_zero l), fun h => absurd h (lt_irrefl 0), fun _ => rfl⟩
    (fun i hi best h => ?_) |>.imp fun best h => ⟨h.1, h.2.1, h.2.2.1⟩
  obtain ⟨hle, hmax, hzero⟩ := h
  have hi : i < book.count n := hi
  refine ⟨max best (book.eval n i), ?_, fun l hl => ?_, fun _ => ?_, fun h0 => absurd h0 (by omega)⟩
  · rw [moveAt_eq hmap hwf hn hi]
    show Except.ok (if plausibleMove (book.record n i).move = true then _ else _) = _
    rw [if_pos (hshape i hi)]
    rfl
  · rcases Nat.lt_succ_iff_lt_or_eq.mp hl with hl | rfl
    · exact (hle l hl).trans (le_max_left _ _)
    · exact le_max_right _ _
  · rcases le_total best (book.eval n i) with h | h
    · exact ⟨i, Nat.lt_succ_self i, max_eq_right h⟩
    · rcases Nat.eq_zero_or_pos i with h0 | h0
      · refine ⟨i, Nat.lt_succ_self i, max_eq_right ?_⟩
        rw [hzero h0]
        exact (by decide : intMin ≤ -2 ^ 15).trans (BitVec.le_toInt _)
      · obtain ⟨l, hl, heq⟩ := hmax h0
        exact ⟨l, Nat.lt_succ_of_lt hl, (max_eq_left h).trans heq⟩

/-- What the worker stores for a move. -/
theorem resolveMove_spec (options : Options) (hprep : Prepared book prepared)
    (hplay : Playable book b n l) {best : Int} (hle : ∀ l < book.count n, book.eval n l ≤ best) (hmax : ∃ l < book.count n, best = book.eval n l) :
    ∃ v, resolveMove options prepared (isGote (book.key n)) best b
        (if options.validateMoves then b.generateLegalMoves else []) (book.record n l) = .ok v ∧
      Resolved options book n l v := by
  have hshape : ¬ plausibleMove (book.record n l).move = false := by
    rw [hplay.shape]
    exact Bool.noConfusion
  rw [resolveMove, if_neg hshape]
  by_cases hmargin : isGote (book.key n) = true ∧ (book.record n l).eval.toInt < best - options.evalMargin
  · obtain ⟨l', hl', heq⟩ := hmax
    exact ⟨_, if_pos hmargin, Or.inl ⟨rfl, hmargin.1, l', hl', heq ▸ hmargin.2⟩⟩
  have hvalid : ¬ (options.validateMoves = true ∧
      ((if options.validateMoves then b.generateLegalMoves else []).any fun m =>
        m.raw == (book.record n l).move) = false) := by
    rintro ⟨hv, hno⟩
    obtain ⟨m, hm, hraw⟩ := hplay.legal
    have hany : (b.generateLegalMoves.any fun m => m.raw == (book.record n l).move) = true :=
      List.any_eq_true.mpr ⟨m, hm, beq_iff_eq.mpr hraw⟩
    rw [if_pos hv, hany] at hno
    exact Bool.noConfusion hno
  rw [if_neg hmargin, if_neg hvalid]
  obtain ⟨w, hw⟩ := Option.isSome_iff_exists.mp hplay.packed
  have hkey : book.childKey n l = some w.packed := by
    rw [MappedYbb.childKey, hplay.board, Option.bind_some, hw, Option.map_some]
  refine ⟨(prepared.positions w.packed).getD kExitLeaf, by rw [hw]; rfl, Or.inr ⟨fun hgote l' hl' => ?_, ?_⟩⟩
  · have hnot := not_and.mp hmargin hgote
    have hl := hle l' hl'
    rw [not_lt] at hnot
    have heval : book.eval n l = (book.record n l).eval.toInt := rfl
    omega
  · cases hc : prepared.positions w.packed with
    | none =>
      refine Or.inl ⟨rfl, fun c hleads => ?_⟩
      have hfound := hprep.found c hleads.1
      rw [← Option.some.inj (hkey.symm.trans hleads.2), hc] at hfound
      cases hfound
    | some c =>
      obtain ⟨hlt, heq⟩ := hprep.only _ _ hc
      exact Or.inr ⟨hlt, hkey.trans (congrArg some heq)⟩

/-- The place of the first move of a position. -/
theorem firstMove_eq (hwf : book.WellFormed) (hn : n < book.recordCount) :
    (book.entryAt n).movesOffset.toNat / book.moveRecordSize = PrefixSums.before book.count n := by
  rw [hwf.contiguous n hn, before_mul, Nat.mul_div_cancel _ moveRecordSize_pos]

/-- The worker fills the places of the moves of its node, and no other ones. -/
theorem resolveNode_spec (options : Options) (hmap : Mapped book) (hwf : book.WellFormed)
    (hcanon : book.Canonical) (hprep : Prepared book prepared) (hn : n < book.recordCount)
    (children : Nat → Nat) :
    ∃ children', resolveNode options book prepared children n = .ok children' ∧
      (∀ l < book.count n, Resolved options book n l (children' (PrefixSums.before book.count n + l))) ∧
      ∀ x < PrefixSums.before book.count n, children' x = children x := by
  obtain ⟨b, hboard, hplay⟩ := exists_playable hwf hcanon hn
  obtain ⟨best, hbest, hle, hmax⟩ := bestEval_spec hmap hwf hn fun l hl => (hplay l hl).shape
  rw [resolveNode, entry_eq hn]
  show ∃ children', ((bestEval book (book.entryAt n)).bind _) = _ ∧ _
  rw [hbest]
  show ∃ children', (Option.elim (book.board n) _ _) = _ ∧ _
  rw [hboard, Option.elim_some]
  refine (foldlM_range (n := book.count n) (I := fun k (children' : Nat → Nat) =>
    (∀ l < k, Resolved options book n l (children' (PrefixSums.before book.count n + l))) ∧
      ∀ x < PrefixSums.before book.count n, children' x = children x)
    ⟨fun l hl => absurd hl (Nat.not_lt_zero l), fun _ _ => rfl⟩ fun k hk children' h => ?_)
  obtain ⟨hdone, hbelow⟩ := h
  obtain ⟨v, hv, hresolved⟩ := resolveMove_spec options hprep (hplay k hk) hle
    (hmax (by omega))
  have hplace : PrefixSums.before book.count n + k < prepared.moveCount := by
    rw [hprep.moveCount]
    exact PrefixSums.before_add_lt hn hk
  refine ⟨Function.update children' (PrefixSums.before book.count n + k) v, ?_, ?_, ?_⟩
  · rw [storeChild, firstMove_eq hwf hn]
    simp only [if_neg (not_le.mpr hplace), moveAt_eq hmap hwf hn hk]
    show (resolveMove options prepared (isGote (book.key n)) best b _ (book.record n k)).map _ = _
    rw [hv]
    rfl
  · intro l hl
    rw [Function.update_apply]
    split
    next he =>
      rw [show l = k by omega]
      exact hresolved
    next hne => exact hdone l (by omega)
  · intro x hx
    rw [Function.update_of_ne (by omega)]
    exact hbelow x hx

/-- `ResolveChildren` resolves every stored move. -/
theorem resolveChildren_spec (options : Options) (hmap : Mapped book) (hwf : book.WellFormed)
    (hcanon : book.Canonical) (hprep : Prepared book prepared) :
    ∃ children, resolveChildren options book prepared = .ok children ∧
      ∀ n < book.recordCount, ∀ l < book.count n,
        Resolved options book n l (edgeChild book children n l) := by
  obtain ⟨children, hloop, hall⟩ := foldlM_range (n := prepared.nodeCount)
    (f := fun children node => (resolveNode options book prepared children node).mapError (inRecord node))
    (s := fun _ => kExitDisallowed) (I := fun i (children : Nat → Nat) => ∀ n < i, ∀ l < book.count n,
      Resolved options book n l (children (PrefixSums.before book.count n + l)))
    (fun n hn => absurd hn (Nat.not_lt_zero n)) fun i hi children h => by
      rw [hprep.nodeCount] at hi
      obtain ⟨children', hrun, hnew, hold⟩ := resolveNode_spec options hmap hwf hcanon hprep hi
        children
      refine ⟨children', by rw [hrun]; rfl, fun n hn l hl => ?_⟩
      rcases Nat.lt_succ_iff_lt_or_eq.mp hn with hn | rfl
      · rw [hold _ (PrefixSums.before_add_lt hn hl)]
        exact h n hn l hl
      · exact hnew l hl
  refine ⟨children, hloop, fun n hn l hl => ?_⟩
  rw [edgeChild, firstMove_eq hwf hn]
  exact hall n (hprep.nodeCount.symm ▸ hn) l hl

end Moves

/-! ## The graph -/

section Solved

variable {book : MappedYbb} {options : Options} {children : Nat → Nat} {n l c v : Nat}

/-- The moves of a node, as edges. -/
theorem mem_children : v ∈ (exitGraph book book.recordCount children).children n ↔
    ∃ l < book.count n, edgeChild book children n l = v := by
  show v ∈ (List.range (book.count n)).map (edgeChild book children n) ↔ _
  simp only [List.mem_map, List.mem_range]

theorem kExitDisallowed_lt_kExitLeaf : kExitDisallowed < kExitLeaf := by decide

/-- What a move that stays in the book says. -/
theorem Resolved.leads (h : Resolved options book n l v) (hv : v < kExitDisallowed) :
    book.Leads n l v := by
  rcases h with ⟨rfl, -⟩ | ⟨-, ⟨rfl, -⟩ | hleads⟩
  · exact absurd hv (lt_irrefl _)
  · exact absurd hv (lt_asymm kExitDisallowed_lt_kExitLeaf)
  · exact hleads

/-- The edges into a node are moves that lead to its position. -/
theorem inDegree_le_arrivals (hresolved : ∀ n < book.recordCount, ∀ l < book.count n,
    Resolved options book n l (edgeChild book children n l)) :
    Graph.inDegree (exitGraph book book.recordCount children).edges c ≤ book.arrivals c := by
  rw [Graph.inDegree, Graph.internal, List.countP_filter, Graph.edges, List.countP_flatMap]
  refine List.sum_le_sum fun n hn => ?_
  have hn : n < book.recordCount := List.mem_range.mp hn
  show List.countP _ (((List.range (book.count n)).map (edgeChild book children n)).map fun c => (n, c)) ≤ _
  rw [List.map_map, List.countP_map]
  refine List.countP_mono_left fun l hl hedge => ?_
  obtain ⟨hc, hlt⟩ := Bool.and_eq_true_iff.mp hedge
  have hc : edgeChild book children n l = c := of_decide_eq_true hc
  have hlt : edgeChild book children n l < kExitDisallowed := of_decide_eq_true hlt
  have hleads := (hresolved n hn l (List.mem_range.mp hl)).leads hlt
  rw [decide_eq_true_eq, ← hc]
  exact hleads.2

/-- The graph is one that the solver takes. -/
theorem withinLimits (hfits : book.Fits) (hresolved : ∀ n < book.recordCount, ∀ l < book.count n,
    Resolved options book n l (edgeChild book children n l)) :
    (exitGraph book book.recordCount children).WithinLimits where
  nodes := hfits.nodes
  children p hp v hv := by
    obtain ⟨l, hl, rfl⟩ := mem_children.mp hv
    rcases hresolved p hp l hl with ⟨hdisallowed, -⟩ | ⟨-, ⟨hleaf, -⟩ | hleads⟩
    · exact Or.inr (Or.inr hdisallowed)
    · exact Or.inr (Or.inl hleaf)
    · exact Or.inl hleads.1
  edgeCount p hp := by
    show ((List.range (book.count p)).map (edgeChild book children p)).length ≤ uint32Max
    rw [List.length_map, List.length_range]
    exact (BitVec.isLt _).le.trans (by decide)
  reverseDegree c _ := (inDegree_le_arrivals hresolved).trans (hfits.arrivals c)

/-- What is known of the solution. -/
structure Outcome (options : Options) (book : MappedYbb) (s : Solved) : Prop where
  same : s.book = book
  nodeCount : s.prepared.nodeCount = book.recordCount
  nodes : book.recordCount < kExitDisallowed
  resolved : ∀ n < book.recordCount, ∀ l < book.count n,
    Resolved options book n l (edgeChild book s.children n l)
  guides : (exitGraph book book.recordCount s.children).Guides s.solution.distance

/-- The generator has a solution. -/
theorem exists_solved {path : String} {source : List (BitVec 8)}
    (hfile : MappedYbb.ofFile path source = .ok book) (hwf : book.WellFormed)
    (hcanon : book.Canonical) (hfits : book.Fits) (hall : options.maxPositions = 0) :
    ∃ s, solve options path source = .ok s ∧ Outcome options book s := by
  have hmap := mapped_of_ofFile hfile
  obtain ⟨prepared, hindex, hprep⟩ := validateAndIndex_spec hmap hwf hfits.nodes
  obtain ⟨children, hchildren, hresolved⟩ := resolveChildren_spec options hmap hwf hcanon hprep
  obtain ⟨solution, hsolve, hguides⟩ :=
    Graph.solveGoteExitGraph_guides (withinLimits hfits hresolved)
  refine ⟨⟨book, prepared, children, solution⟩, ?_, rfl, hprep.nodeCount, hfits.nodes, hresolved,
    hguides⟩
  rw [solve, hfile, hall]
  show Except.bind (validateAndIndex book 0) _ = _
  rw [hindex]
  show Except.bind (resolveChildren options book prepared) _ = _
  rw [hchildren]
  show Except.map _ (exitGraph book prepared.nodeCount children).solveGoteExitGraph = _
  rw [hprep.nodeCount, hsolve]
  rfl

end Solved

end GoteBook

end Shogi
