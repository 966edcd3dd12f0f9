import ShogiEngine.Book.YbbFormat
import ShogiEngine.Library.BinarySearch
import ShogiEngine.Shogi.MoveGen
import ShogiEngine.Shogi.PackedWriter

/-!
# The opening book

The reader of `book/opening_book.cc`: a book is loaded and asked for a move at a position.

## Main definitions

- `OpeningBook.load`, `OpeningBook.probe`: the source's functions
- `OpeningBook.Sorted`: an index that can be read, in the order of its keys
- `OpeningBook.reads`: the parts of the file that `Probe` reads
- `OpeningBook.IndexSorted`, `OpeningBook.MovesComplete`: books in good order

## Main results

- `OpeningBook.find_of_mem`, `OpeningBook.find_of_not_mem`: the binary search of `Probe`
- `OpeningBook.probe_single`: the move that a position with one legal move is answered with
- `OpeningBook.probe_correct`: what `Probe` reads and returns, for any file that `Load` accepts
-/

namespace Shogi

/-- The largest size of a file and the positions in it: a `streamoff` or an `off_t` is not negative. -/
def fileSizeLimit : Nat := 2 ^ 63

/-- `BookEntry`. -/
structure BookEntry where
  move : Move
  eval : Int
  depth : Nat
  deriving DecidableEq, Repr

/-- `OpeningBook` while it is loaded, with the contents of its file. -/
structure OpeningBook where
  contents : List (BitVec 8)
  recordCount : Nat
  flags : BitVec 64
  movesBase : Nat
  deriving DecidableEq

namespace OpeningBook

/-- `ReadIndexEntry`, `none` where it returns `false`. -/
def readIndexEntry (book : OpeningBook) (index : Nat) : Option YbbIndexEntry :=
  if book.recordCount ≤ index then none
  else
    let offset := kYbbHeaderSize + index * kYbbIndexRecordSize
    if book.contents.length < offset + kYbbIndexRecordSize then none
    else some (decodeYbbIndexEntry (book.contents.drop offset))

/-- `ReadMove`, `none` where it returns `false`. -/
def readMove (book : OpeningBook) (entry : YbbIndexEntry) (moveIndex : Nat) : Option YbbMoveRecord :=
  if entry.moveCount.toNat ≤ moveIndex then none
  else
    let recordSize := ybbMoveRecordSize book.flags
    let relative := (entry.movesOffset.toNat + moveIndex * recordSize) % 2 ^ 64
    if book.contents.length - book.movesBase < relative ∨
        book.contents.length - book.movesBase - relative < recordSize then none
    else some (decodeYbbMoveRecord (book.contents.drop (book.movesBase + relative)) book.flags)

/-- `ValidateFile`. -/
def validateFile (book : OpeningBook) : Except String Unit :=
  if book.recordCount = 0 then
    if book.movesBase ≠ book.contents.length then .error "empty YBB has trailing data" else .ok ()
  else
    ((book.readIndexEntry 0).bind fun first =>
      (book.readIndexEntry (book.recordCount - 1)).map fun last => (first, last)).elim
      (.error "cannot read YBB index") fun ends =>
        if ends.1.movesOffset ≠ 0#64 ∨
            book.contents.length - book.movesBase < ends.2.movesOffset.toNat ∨
            (book.contents.length - book.movesBase - ends.2.movesOffset.toNat) /
              ybbMoveRecordSize book.flags < ends.2.moveCount.toNat then
          .error "invalid YBB moves area"
        else .ok ()

/-- `Load`, with `last_error_` where it fails; there are no contents where the file cannot be opened. -/
def load (path : String) (contents : Option (List (BitVec 8))) : Except String OpeningBook :=
  contents.elim (.error ("cannot open YBB file: " ++ path)) fun bytes =>
    if fileSizeLimit ≤ bytes.length then .error ("cannot determine YBB file size: " ++ path)
    else if bytes.length < kYbbHeaderSize ∨ bytes.take 16 ≠ kYbbMagic then
      .error ("invalid YBB V1 header: " ++ path)
    else
      let recordCount := (readLe64 (bytes.drop 16)).toNat
      let flags := readLe64 (bytes.drop 24)
      if flags &&& ~~~kYbbKnownFlags ≠ 0#64 then
        .error ("unsupported YBB flags: " ++ toString flags.toNat)
      else
        (ybbIndexSize recordCount).elim (.error "invalid YBB index size") fun movesBase =>
          if bytes.length < movesBase then .error "invalid YBB index size"
          else
            let book : OpeningBook := ⟨bytes, recordCount, flags, movesBase⟩
            book.validateFile.map fun _ => book

/-- The loop of `Probe` over the index. -/
def find (book : OpeningBook) (target : PackedSfen) : Option YbbIndexEntry :=
  (BinarySearch.bisect
    (fun i => (book.readIndexEntry i).map fun e => comparePackedSfen target e.packedSfen)
    (book.recordCount + 1) 0 book.recordCount).bind book.readIndexEntry

/-- The body of the loop of `Probe` over the moves. -/
def considerMove (book : OpeningBook) (entry : YbbIndexEntry) (legalMoves : MoveList)
    (best : Option YbbMoveRecord) (i : Nat) : Option (Option YbbMoveRecord) :=
  (book.readMove entry i).map fun candidate =>
    if (legalMoves.any fun m => m.raw == candidate.move) &&
        best.all (fun b => b.eval.toInt < candidate.eval.toInt) then some candidate
    else best

/-- `Probe`. -/
def probe (book : OpeningBook) (board : ShogiBoard) : Option BookEntry :=
  board.toPackedSfen.bind fun w =>
    (book.find w.packed).bind fun entry =>
      if entry.moveCount = 0#16 then none
      else
        ((List.range entry.moveCount.toNat).foldlM (book.considerMove entry board.generateLegalMoves)
            none).bind fun best =>
          best.map fun b => ⟨.fromRaw b.move, b.eval.toInt, b.depth.toNat⟩

/-! ## What is found -/

section Probe

variable {book : OpeningBook} {keys : Nat → PackedSfen} {target : PackedSfen} {entry : YbbIndexEntry}
  {board : ShogiBoard} {i : Nat}

/-- The index can be read, and its keys are in order. -/
def Sorted (book : OpeningBook) (keys : Nat → PackedSfen) : Prop :=
  (∀ i < book.recordCount, (book.readIndexEntry i).map YbbIndexEntry.packedSfen = some (keys i)) ∧
    ∀ i j, i < j → j < book.recordCount → comparePackedSfen (keys i) (keys j) = .lt

theorem Sorted.side (h : book.Sorted keys) (target : PackedSfen) : ∀ i < book.recordCount,
    ((book.readIndexEntry i).map fun e => comparePackedSfen target e.packedSfen) =
      some (compare target.key (keys i).key) := by
  intro i hi
  have hmap := congrArg (Option.map (comparePackedSfen target)) (h.1 i hi)
  rw [Option.map_map, Option.map_some, comparePackedSfen_eq] at hmap
  exact hmap

theorem Sorted.lt (h : book.Sorted keys) : ∀ i j, i < j → j < book.recordCount →
    (keys i).key < (keys j).key := by
  intro i j hij hj
  rw [← compare_lt_iff_lt, ← comparePackedSfen_eq]
  exact h.2 i j hij hj

/-- The binary search of `Probe` finds the positions of the book. -/
theorem find_of_mem (h : book.Sorted keys) (hi : i < book.recordCount) :
    book.find (keys i) = book.readIndexEntry i := by
  rw [find, BinarySearch.bisect_of_mem (h.side (keys i)) h.lt (by omega) le_rfl rfl (Nat.zero_le i) hi,
    Option.bind_some]

/-- It finds no other ones. -/
theorem find_of_not_mem (h : book.Sorted keys) (hno : ∀ i < book.recordCount, keys i ≠ target) :
    book.find target = none := by
  rw [find, BinarySearch.bisect_of_not_mem (h.side target)
    (fun i hi he => hno i hi (PackedSfen.key_injective he)) le_rfl, Option.bind_none]

/-- A position with one move, which is legal, is answered with it. -/
theorem probe_single {w : PackedSfen.BitWriter} {record : YbbMoveRecord} {m : Move}
    (hw : board.toPackedSfen = some w) (hfind : book.find w.packed = some entry)
    (hone : entry.moveCount = 1#16) (hread : book.readMove entry 0 = some record)
    (hm : m ∈ board.generateLegalMoves) (hraw : m.raw = record.move) :
    book.probe board = some ⟨m, record.eval.toInt, record.depth.toNat⟩ := by
  have hlegal : (board.generateLegalMoves.any fun m => m.raw == record.move) = true :=
    List.any_eq_true.mpr ⟨m, hm, beq_iff_eq.mpr hraw⟩
  have hloop : (List.range entry.moveCount.toNat).foldlM
      (book.considerMove entry board.generateLegalMoves) none = some (some record) := by
    rw [hone, show (1#16).toNat = 1 from rfl, List.range_one, List.foldlM_cons, considerMove, hread,
      Option.map_some, hlegal, Bool.true_and]
    rfl
  rw [probe, hw, Option.bind_some, hfind, Option.bind_some, hloop, hone, if_neg (by decide),
    Option.bind_some, Option.map_some, ← hraw, Move.fromRaw_raw]

end Probe

/-! ## Any file that is accepted -/

/-- The side of entry `i` on which a key is. -/
def side (book : OpeningBook) (target : PackedSfen) (i : Nat) : Option Ordering :=
  (book.readIndexEntry i).map fun e => comparePackedSfen target e.packedSfen

/-- The place and the size of an entry of the index. -/
def entryPlace (i : Nat) : Nat × Nat := (kYbbHeaderSize + i * kYbbIndexRecordSize, kYbbIndexRecordSize)

/-- The place and the size of a move. -/
def movePlace (book : OpeningBook) (entry : YbbIndexEntry) (i : Nat) : Nat × Nat :=
  (book.movesBase + (entry.movesOffset.toNat + i * ybbMoveRecordSize book.flags) % 2 ^ 64,
    ybbMoveRecordSize book.flags)

/-- The places that `Probe` reads: entries until one is the target, then moves until one is out of
range. -/
def reads (book : OpeningBook) (board : ShogiBoard) : List (Nat × Nat) :=
  board.toPackedSfen.elim [] fun w =>
    (BinarySearch.visited (book.side w.packed) (book.recordCount + 1) 0 book.recordCount).map
        entryPlace ++
      (book.find w.packed).elim [] fun entry =>
        ((List.range entry.moveCount.toNat).takeWhile fun i => (book.readMove entry i).isSome).map
          (book.movePlace entry)

/-- The index is strictly sorted. -/
def IndexSorted (book : OpeningBook) : Prop :=
  ∀ i j e e', i < j → book.readIndexEntry i = some e → book.readIndexEntry j = some e' →
    comparePackedSfen e.packedSfen e'.packedSfen = .lt

/-- The moves of every entry are in the file. -/
def MovesComplete (book : OpeningBook) : Prop :=
  ∀ i e, book.readIndexEntry i = some e →
    e.movesOffset.toNat + e.moveCount.toNat * ybbMoveRecordSize book.flags ≤
      book.contents.length - book.movesBase

/-- A stored move that is legal on the board. -/
def LegalMove (book : OpeningBook) (board : ShogiBoard) (entry : YbbIndexEntry)
    (record : YbbMoveRecord) : Prop :=
  (∃ l < entry.moveCount.toNat, book.readMove entry l = some record) ∧
    ∃ m ∈ board.generateLegalMoves, m.raw = record.move

/-- The entry of a position. -/
def EntryOf (book : OpeningBook) (board : ShogiBoard) (entry : YbbIndexEntry) : Prop :=
  ∃ w, board.toPackedSfen = some w ∧ entry.packedSfen = w.packed ∧
    ∃ i, book.readIndexEntry i = some entry

section Accepted

variable {book : OpeningBook} {board : ShogiBoard} {entry : YbbIndexEntry} {record : YbbMoveRecord}
  {path : String} {contents : List (BitVec 8)} {i l n : Nat}

/-- What is known of a file that was accepted. -/
structure Accepted (book : OpeningBook) (contents : List (BitVec 8)) : Prop where
  bytes : book.contents = contents
  small : contents.length < 2 ^ 63
  base : book.movesBase = kYbbHeaderSize + book.recordCount * kYbbIndexRecordSize
  fits : book.movesBase ≤ contents.length

theorem accepted_of_load (h : load path (some contents) = .ok book) : Accepted book contents := by
  rw [load, Option.elim_some] at h
  split at h
  · cases h
  next hsmall =>
    split at h
    · cases h
    next =>
      dsimp only at h
      split at h
      · cases h
      next =>
        rw [ybbIndexSize] at h
        split at h
        · cases h
        next =>
          rw [Option.elim_some] at h
          split at h
          · cases h
          next hfits =>
            cases hvalid : validateFile ⟨contents, (readLe64 (contents.drop 16)).toNat,
                readLe64 (contents.drop 24),
                kYbbHeaderSize + (readLe64 (contents.drop 16)).toNat * kYbbIndexRecordSize⟩ with
            | error e =>
              rw [hvalid] at h
              cases h
            | ok u =>
              rw [hvalid] at h
              cases h
              exact ⟨rfl, not_le.mp hsmall, rfl, not_lt.mp hfits⟩

/-- Entries lie before the moves. -/
theorem entryPlace_le (h : Accepted book contents) (hi : i < book.recordCount) :
    (entryPlace i).1 + (entryPlace i).2 ≤ contents.length := by
  have hfits := h.fits
  have hle : (i + 1) * kYbbIndexRecordSize ≤ book.recordCount * kYbbIndexRecordSize :=
    Nat.mul_le_mul_right _ hi
  rw [h.base] at hfits
  rw [Nat.succ_mul] at hle
  rw [entryPlace]
  omega

/-- Every entry can be read. -/
theorem readIndexEntry_isSome (h : Accepted book contents) (hi : i < book.recordCount) :
    (book.readIndexEntry i).isSome = true := by
  have hle := entryPlace_le h hi
  rw [readIndexEntry, if_neg (not_le.mpr hi)]
  dsimp only
  rw [if_neg (by rw [h.bytes]; exact not_lt.mpr hle)]
  rfl

theorem lt_of_readIndexEntry (h : book.readIndexEntry i = some entry) : i < book.recordCount := by
  rw [readIndexEntry] at h
  split at h
  · cases h
  next hi => exact not_le.mp hi

/-- A move that can be read is in the file. -/
theorem movePlace_le (h : Accepted book contents) (hread : (book.readMove entry i).isSome = true) :
    (book.movePlace entry i).1 + (book.movePlace entry i).2 ≤ contents.length := by
  have hfits := h.fits
  rw [readMove] at hread
  split at hread
  · cases hread
  next =>
    dsimp only at hread
    split at hread
    · cases hread
    next hin =>
      rw [h.bytes] at hin
      rw [movePlace]
      omega

/-- With complete moves every move can be read. -/
theorem readMove_isSome (h : Accepted book contents) (hmoves : book.MovesComplete)
    (hentry : book.readIndexEntry i = some entry) (hl : l < entry.moveCount.toNat) :
    (book.readMove entry l).isSome = true := by
  have hcomplete := hmoves i entry hentry
  have hle : (l + 1) * ybbMoveRecordSize book.flags ≤
      entry.moveCount.toNat * ybbMoveRecordSize book.flags := Nat.mul_le_mul_right _ hl
  have hsmall := h.small
  rw [Nat.succ_mul] at hle
  have hmod : (entry.movesOffset.toNat + l * ybbMoveRecordSize book.flags) % 2 ^ 64 =
      entry.movesOffset.toNat + l * ybbMoveRecordSize book.flags :=
    Nat.mod_eq_of_lt (by rw [h.bytes] at hcomplete; omega)
  rw [readMove, if_neg (not_le.mpr hl)]
  dsimp only
  rw [hmod, if_neg (by omega)]
  rfl

/-! ### The loop over the moves -/

/-- The best legal move among the first `n`. -/
def BestOf (book : OpeningBook) (board : ShogiBoard) (entry : YbbIndexEntry) (n : Nat)
    (best : Option YbbMoveRecord) : Prop :=
  (∀ b, best = some b → (∃ l < n, book.readMove entry l = some b) ∧
      ∃ m ∈ board.generateLegalMoves, m.raw = b.move) ∧
    ∀ l < n, ∀ r, book.readMove entry l = some r → (∃ m ∈ board.generateLegalMoves, m.raw = r.move) →
      ∃ b, best = some b ∧ r.eval.toInt ≤ b.eval.toInt

/-- One pass. -/
theorem considerMove_spec {best best' : Option YbbMoveRecord} (h : BestOf book board entry n best)
    (hpass : book.considerMove entry board.generateLegalMoves best n = some best') :
    BestOf book board entry (n + 1) best' := by
  obtain ⟨candidate, hread, hbest⟩ := Option.map_eq_some_iff.mp hpass
  obtain ⟨hmine, hmax⟩ := h
  have hlegal : (board.generateLegalMoves.any fun m => m.raw == candidate.move) = true ↔
      ∃ m ∈ board.generateLegalMoves, m.raw = candidate.move := by
    simp only [List.any_eq_true, beq_iff_eq]
  have hkeep : ∀ b, best = some b → (∃ l < n + 1, book.readMove entry l = some b) ∧
      ∃ m ∈ board.generateLegalMoves, m.raw = b.move := by
    intro b hb
    obtain ⟨⟨l, hl, hr⟩, hm⟩ := hmine b hb
    exact ⟨⟨l, Nat.lt_succ_of_lt hl, hr⟩, hm⟩
  split at hbest
  next htake =>
    subst hbest
    rw [Bool.and_eq_true, hlegal] at htake
    obtain ⟨hm, hbetter⟩ := htake
    refine ⟨fun b hb => ?_, fun l hl r hr hrm => ⟨candidate, rfl, ?_⟩⟩
    · cases hb
      exact ⟨⟨n, Nat.lt_succ_self n, hread⟩, hm⟩
    · rcases Nat.lt_succ_iff_lt_or_eq.mp hl with hlt | rfl
      · obtain ⟨b, hb, hle⟩ := hmax l hlt r hr hrm
        rw [hb, Option.all_some, decide_eq_true_eq] at hbetter
        exact hle.trans hbetter.le
      · rw [Option.some.inj (hr.symm.trans hread)]
  next hleave =>
    subst hbest
    refine ⟨hkeep, fun l hl r hr hrm => ?_⟩
    rcases Nat.lt_succ_iff_lt_or_eq.mp hl with hlt | rfl
    · exact hmax l hlt r hr hrm
    · -- a legal candidate that is left is no better than the best one
      cases Option.some.inj (hr.symm.trans hread)
      rw [Bool.and_eq_true, not_and, hlegal] at hleave
      have hworse := hleave hrm
      cases best with
      | none => exact absurd rfl hworse
      | some b =>
        rw [Option.all_some, decide_eq_true_eq, not_lt] at hworse
        exact ⟨b, rfl, hworse⟩

/-- The whole loop. -/
theorem bestOf_of_loop {best : Option YbbMoveRecord}
    (h : (List.range n).foldlM (book.considerMove entry board.generateLegalMoves) none = some best) :
    BestOf book board entry n best := by
  induction n generalizing best with
  | zero =>
    cases h
    exact ⟨fun b hb => absurd hb (Option.some_ne_none b).symm, fun l hl => absurd hl (Nat.not_lt_zero l)⟩
  | succ n ih =>
    rw [List.range_succ, List.foldlM_append] at h
    obtain ⟨best', hloop, hlast⟩ := Option.bind_eq_some_iff.mp h
    have hpass : book.considerMove entry board.generateLegalMoves best' n = some best := by
      rw [List.foldlM_cons] at hlast
      obtain ⟨s, hs, hnil⟩ := Option.bind_eq_some_iff.mp hlast
      cases hnil
      exact hs
    exact considerMove_spec (ih hloop) hpass

/-- The loop ends where every move can be read. -/
theorem exists_loop (board : ShogiBoard) (hread : ∀ l < n, (book.readMove entry l).isSome = true) :
    ∃ best, (List.range n).foldlM (book.considerMove entry board.generateLegalMoves) none = some best := by
  induction n with
  | zero => exact ⟨none, rfl⟩
  | succ n ih =>
    obtain ⟨best, hbest⟩ := ih fun l hl => hread l (Nat.lt_succ_of_lt hl)
    obtain ⟨candidate, hcandidate⟩ := Option.isSome_iff_exists.mp (hread n (Nat.lt_succ_self n))
    rw [List.range_succ, List.foldlM_append, hbest]
    show ∃ b, List.foldlM _ best [n] = some b
    rw [List.foldlM_cons, considerMove, hcandidate]
    exact ⟨_, rfl⟩

/-! ### The answer -/

theorem probe_eq_some {e : BookEntry} : book.probe board = some e ↔ ∃ w entry best,
    board.toPackedSfen = some w ∧ book.find w.packed = some entry ∧ entry.moveCount ≠ 0#16 ∧
      (List.range entry.moveCount.toNat).foldlM (book.considerMove entry board.generateLegalMoves) none =
        some (some best) ∧ e = ⟨.fromRaw best.move, best.eval.toInt, best.depth.toNat⟩ := by
  rw [probe]
  constructor
  · intro h
    obtain ⟨w, hw, h⟩ := Option.bind_eq_some_iff.mp h
    obtain ⟨entry, hfind, h⟩ := Option.bind_eq_some_iff.mp h
    split at h
    · cases h
    next hcount =>
      obtain ⟨best, hloop, h⟩ := Option.bind_eq_some_iff.mp h
      obtain ⟨b, rfl, rfl⟩ := Option.map_eq_some_iff.mp h
      exact ⟨w, entry, b, hw, hfind, hcount, hloop, rfl⟩
  · rintro ⟨w, entry, best, hw, hfind, hcount, hloop, rfl⟩
    rw [hw, Option.bind_some, hfind, Option.bind_some, if_neg hcount, hloop]
    rfl

/-- What is found is an entry of the index with the key that was asked for. -/
theorem find_some {target : PackedSfen} (h : book.find target = some entry) :
    entry.packedSfen = target ∧ ∃ i, book.readIndexEntry i = some entry := by
  obtain ⟨i, hi, hentry⟩ := Option.bind_eq_some_iff.mp h
  have hside := BinarySearch.side_of_bisect hi
  rw [hentry, Option.map_some, Option.some_inj, comparePackedSfen_eq, compare_eq_iff_eq] at hside
  exact ⟨(PackedSfen.key_injective hside).symm, i, hentry⟩

/-- Whatever is returned is a legal move. -/
theorem probe_legal {e : BookEntry} (h : book.probe board = some e) :
    e.move ∈ board.generateLegalMoves := by
  obtain ⟨w, entry, best, -, -, -, hloop, rfl⟩ := probe_eq_some.mp h
  obtain ⟨-, m, hm, hraw⟩ := (bestOf_of_loop hloop).1 best rfl
  rw [← hraw, Move.fromRaw_raw]
  exact hm

/-- A book in good order answers with the best of the legal moves of the position's entry. -/
theorem probe_best {e : BookEntry} (h : book.probe board = some e) :
    ∃ entry record, book.EntryOf board entry ∧ book.LegalMove board entry record ∧
      e = ⟨.fromRaw record.move, record.eval.toInt, record.depth.toNat⟩ ∧
      ∀ r, book.LegalMove board entry r → r.eval.toInt ≤ e.eval := by
  obtain ⟨w, entry, best, hw, hfind, -, hloop, rfl⟩ := probe_eq_some.mp h
  obtain ⟨hkey, i, hi⟩ := find_some hfind
  obtain ⟨hmine, hmax⟩ := bestOf_of_loop hloop
  refine ⟨entry, best, ⟨w, hw, hkey, i, hi⟩, hmine best rfl, rfl, fun r hr => ?_⟩
  obtain ⟨⟨l, hl, hread⟩, hm⟩ := hr
  obtain ⟨b, hb, hle⟩ := hmax l hl r hread hm
  rw [Option.some.inj hb]
  exact hle

/-- It answers wherever the entry has a legal move. -/
theorem probe_isSome (h : Accepted book contents) (hsorted : book.IndexSorted)
    (hmoves : book.MovesComplete) (hentry : book.EntryOf board entry)
    (hlegal : book.LegalMove board entry record) : (book.probe board).isSome = true := by
  obtain ⟨w, hw, hkey, i, hi⟩ := hentry
  obtain ⟨⟨l, hl, hread⟩, hm⟩ := hlegal
  have hfind : book.find w.packed = some entry := by
    have hread : ∀ j < book.recordCount, ∃ e, book.readIndexEntry j = some e := fun j hj =>
      Option.isSome_iff_exists.mp (readIndexEntry_isSome h hj)
    have : Nonempty YbbIndexEntry := ⟨entry⟩
    choose! entries hentries using hread
    have htable : book.Sorted fun j => (entries j).packedSfen := by
      refine ⟨fun j hj => by rw [hentries j hj, Option.map_some], fun j k hjk hk => ?_⟩
      exact hsorted j k _ _ hjk (hentries j (hjk.trans hk)) (hentries k hk)
    have hlt := lt_of_readIndexEntry hi
    have hsame : entries i = entry := Option.some.inj ((hentries i hlt).symm.trans hi)
    have hfound := find_of_mem htable hlt
    rw [hsame, hkey] at hfound
    exact hfound.trans hi
  obtain ⟨best, hloop⟩ := exists_loop board fun l hl => readMove_isSome h hmoves hi hl
  obtain ⟨b, rfl, -⟩ := (bestOf_of_loop hloop).2 l hl record hread hm
  have hcount : entry.moveCount ≠ 0#16 := by
    intro hzero
    rw [hzero] at hl
    exact absurd hl (Nat.not_lt_zero _)
  rw [probe_eq_some.mpr ⟨w, entry, b, hw, hfind, hcount, hloop, rfl⟩]
  rfl

/-- All that `Probe` reads is in the file. -/
theorem reads_le (h : Accepted book contents) {place : Nat × Nat} (hp : place ∈ book.reads board) :
    place.1 + place.2 ≤ contents.length := by
  rw [reads] at hp
  cases hw : board.toPackedSfen with
  | none =>
    rw [hw] at hp
    cases hp
  | some w =>
    rw [hw, Option.elim_some] at hp
    rcases List.mem_append.mp hp with hp | hp
    · obtain ⟨i, hi, rfl⟩ := List.mem_map.mp hp
      exact entryPlace_le h (BinarySearch.mem_visited hi).2
    · cases hfind : book.find w.packed with
      | none =>
        rw [hfind] at hp
        cases hp
      | some entry =>
        rw [hfind, Option.elim_some] at hp
        obtain ⟨i, hi, rfl⟩ := List.mem_map.mp hp
        exact movePlace_le h
          (List.mem_takeWhile_imp (p := fun i => (book.readMove entry i).isSome) hi)

/-- For every file that `Load` accepts and every board, the search of `Probe` ends after at most as
many passes as there are entries, all places that are read are in the file, and what is returned is a
legal move; if the index is sorted and the moves are complete, there is an answer exactly if the entry
of the position has a legal move, and it is the best of these. -/
theorem probe_correct (path : String) (contents : List (BitVec 8)) (book : OpeningBook)
    (hload : load path (some contents) = .ok book) (board : ShogiBoard) :
    (∀ target fuel, (BinarySearch.visited (book.side target) fuel 0 book.recordCount).length ≤
        book.recordCount) ∧
      (∀ target k, (BinarySearch.bisect (book.side target) (book.recordCount + 1 + k) 0
        book.recordCount).bind book.readIndexEntry = book.find target) ∧
      (∀ place ∈ book.reads board, place.1 + place.2 ≤ contents.length) ∧
      (∀ e, book.probe board = some e → e.move ∈ board.generateLegalMoves) ∧
      (book.IndexSorted → book.MovesComplete →
        ((book.probe board).isSome = true ↔
          ∃ entry record, book.EntryOf board entry ∧ book.LegalMove board entry record) ∧
        ∀ e, book.probe board = some e → ∃ entry record, book.EntryOf board entry ∧
          book.LegalMove board entry record ∧
          e = ⟨.fromRaw record.move, record.eval.toInt, record.depth.toNat⟩ ∧
          ∀ r, book.LegalMove board entry r → r.eval.toInt ≤ e.eval) := by
  have h := accepted_of_load hload
  refine ⟨fun target fuel => BinarySearch.length_visited_le, fun target k => ?_,
    fun place hp => reads_le h hp, fun e he => probe_legal he, fun hsorted hmoves => ⟨?_, ?_⟩⟩
  · rw [BinarySearch.bisect_add (by omega)]
    rfl
  · constructor
    · intro hsome
      obtain ⟨e, he⟩ := Option.isSome_iff_exists.mp hsome
      obtain ⟨entry, record, hentry, hlegal, -⟩ := probe_best he
      exact ⟨entry, record, hentry, hlegal⟩
    · rintro ⟨entry, record, hentry, hlegal⟩
      exact probe_isSome h hsorted hmoves hentry hlegal
  · exact fun e he => probe_best he

end Accepted

end OpeningBook

/-! ## A book of one position -/

/-- A book of one position. -/
def bookOf (entry : YbbIndexEntry) (moves : List YbbMoveRecord) : List (BitVec 8) :=
  ybbHeader 1#64 kYbbFlagMoveDepth ++ (encodeYbbIndexEntry entry ++ moves.flatMap encodeYbbMoveRecord)

/-- A key of the position with two kings and Gote to move. The other men are in the box, and the last
bit of the key is the colour of one of them. -/
def kingsKey (last : BitVec 8) : PackedSfen :=
  .ofBytes [89#8, 36#8, 0#8, 0#8, 0#8, 0#8, 0#8, 0#8, 0#8, 0#8, 0#8, 128#8, 36#8, 73#8, 146#8, 36#8,
    73#8, 146#8, 148#8, 82#8, 74#8, 173#8, 181#8, 182#8, 214#8, 90#8, 123#8, 239#8, 253#8, 122#8, 253#8,
    last]

/-- Two moves of Gote's king. -/
def kingsMoves : List YbbMoveRecord := [⟨4635#16, 50#16, 0#16⟩, ⟨4645#16, 20#16, 0#16⟩]

/-- The entry of the position with two kings. -/
def kingsEntry (last : BitVec 8) : YbbIndexEntry := ⟨kingsKey last, 0#64, 1#16, 2#16⟩

/-- The board of the position with two kings. -/
def kingsBoard : ShogiBoard := (ShogiBoard.setFromPackedSfen (kingsKey 126#8) 1).getD .new

/-- Its book. -/
def kingsOpening : OpeningBook := ⟨bookOf (kingsEntry 126#8) kingsMoves, 1, kYbbFlagMoveDepth, 76⟩

theorem eq_ok_of_toOption {ε α : Type} {x : Except ε α} {a : α} (h : x.toOption = some a) :
    x = .ok a := by
  cases x with
  | error e => cases h
  | ok b => exact congrArg Except.ok (Option.some.inj h)

namespace OpeningBook

theorem readIndexEntry_kings {i : Nat} {e : YbbIndexEntry}
    (h : kingsOpening.readIndexEntry i = some e) : i = 0 ∧ e.movesOffset.toNat = 0 ∧
      e.moveCount.toNat = 2 := by
  have hi : i = 0 := Nat.lt_one_iff.mp (lt_of_readIndexEntry h)
  subst hi
  have hfirst : (kingsOpening.readIndexEntry 0).map (fun e => (e.movesOffset.toNat, e.moveCount.toNat)) =
      some (0, 2) := by decide +kernel
  rw [h, Option.map_some, Option.some_inj, Prod.mk.injEq] at hfirst
  exact ⟨rfl, hfirst⟩

theorem probe_correct_kings : (kingsOpening.probe kingsBoard).isSome = true ↔
    ∃ entry record, kingsOpening.EntryOf kingsBoard entry ∧
      kingsOpening.LegalMove kingsBoard entry record := by
  refine ((probe_correct "" (bookOf (kingsEntry 126#8) kingsMoves) kingsOpening
    (eq_ok_of_toOption (by decide +kernel)) kingsBoard).2.2.2.2 ?_ ?_).1
  · intro i j e e' hij he he'
    have hi := (readIndexEntry_kings he).1
    have hj := (readIndexEntry_kings he').1
    omega
  · intro i e he
    obtain ⟨-, hoffset, hcount⟩ := readIndexEntry_kings he
    rw [hoffset, hcount]
    decide +kernel

/-- The better one of the two moves is the answer. -/
example : kingsOpening.probe kingsBoard = some ⟨.normal (.fromIdx 36) (.fromIdx 27), 50, 0⟩ := by
  decide +kernel

end OpeningBook

end Shogi
