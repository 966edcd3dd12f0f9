import ShogiEngine.Book.GoteExitSolver
import ShogiEngine.Book.OpeningBook
import ShogiEngine.Shogi.MakeMove

/-!
# The generator of Gote books

`tools/gote_book_generator.cc`: the positions of a source book become a graph, the graph is solved,
and one move for each Gote position is written to a book of its own.

## Main definitions

- `MappedYbb`: the source book
- `validateAndIndex`, `resolveChildren`, `exitGraph`: the graph
- `selectGoteMove`, `writeOutput`: the source's functions
- `generate`: what `Run` writes
-/

namespace Shogi

namespace GoteBook

open GoteExit

/-- The options that the result depends on. -/
structure Options where
  evalMargin : Nat
  maxPositions : Nat
  validateMoves : Bool

/-! ## The source book -/

/-- `MappedYbb`, with the contents of its file. -/
structure MappedYbb where
  contents : List (BitVec 8)
  recordCount : Nat
  flags : BitVec 64
  movesBase : Nat
  deriving DecidableEq

namespace MappedYbb

/-- The constructors of `MappedFile` and `MappedYbb`. -/
def ofFile (path : String) (contents : List (BitVec 8)) : Except Failure MappedYbb :=
  if fileSizeLimit ≤ contents.length then .error (.thrown ("cannot stat input: " ++ path))
  else if contents.length = 0 then .error (.thrown "input file is empty")
  else if contents.length < kYbbHeaderSize ∨ contents.take 16 ≠ kYbbMagic then
    .error (.thrown "invalid YBB V1 header")
  else
    let recordCount := (readLe64 (contents.drop 16)).toNat
    let flags := readLe64 (contents.drop 24)
    if flags &&& ~~~kYbbKnownFlags ≠ 0#64 then
      .error (.thrown ("unsupported YBB flags: " ++ toString flags.toNat))
    else
      (ybbIndexSize recordCount).elim (.error (.thrown "invalid YBB index size")) fun movesBase =>
        if contents.length < movesBase then .error (.thrown "invalid YBB index size")
        else .ok ⟨contents, recordCount, flags, movesBase⟩

variable (book : MappedYbb)

/-- `move_record_size`. -/
def moveRecordSize : Nat := ybbMoveRecordSize book.flags

/-- An entry of the index. -/
def entryAt (index : Nat) : YbbIndexEntry :=
  decodeYbbIndexEntry (book.contents.drop (kYbbHeaderSize + index * kYbbIndexRecordSize))

/-- `Entry`. -/
def entry (index : Nat) : Except Failure YbbIndexEntry :=
  if book.recordCount ≤ index then .error (.thrown "YBB index out of range")
  else .ok (book.entryAt index)

/-- `MoveAt`. -/
def moveAt (entry : YbbIndexEntry) (localMove : Nat) : Except Failure YbbMoveRecord :=
  if entry.moveCount.toNat ≤ localMove then .error (.thrown "YBB move index out of range")
  else
    let relative := (entry.movesOffset.toNat + localMove * book.moveRecordSize) % 2 ^ 64
    if book.contents.length - book.movesBase < relative ∨
        book.contents.length - book.movesBase - relative < book.moveRecordSize then
      .error (.thrown "YBB move area out of range")
    else .ok (decodeYbbMoveRecord (book.contents.drop (book.movesBase + relative)) book.flags)

end MappedYbb

/-- The test of the side to move, `(packed_sfen.data[0] & 1U) != 0`. -/
def isGote (p : PackedSfen) : Bool := p.data 0 &&& 1#8 != 0#8

/-- `PlausibleMove`. -/
def plausibleMove (raw : BitVec 16) : Bool :=
  if raw = 0#16 then false
  else
    let dst := (raw &&& 0x7F#16).toNat
    let other := ((raw >>> 7) &&& 0x7F#16).toNat
    if 81 ≤ dst then false
    else if raw &&& Move.kDropFlag ≠ 0#16 then
      raw &&& Move.kPromoteFlag == 0#16 && decide (1 ≤ other) && decide (other ≤ 7)
    else decide (other < 81) && other != dst

/-- `Square::ToString`. -/
def squareToString (s : Square) : String :=
  String.ofList [Char.ofNat ('1'.toNat + s.file), Char.ofNat ('a'.toNat + s.rank)]

/-- `PieceType::ToChar`. -/
def pieceToChar (pt : PieceType) : Char := ".PLNSBRGK".toList.getD pt.idx '+'

/-- `Move::ToString`. -/
def moveToString : Move → String
  | .normal s t => squareToString s ++ squareToString t
  | .promotion s t => squareToString s ++ squareToString t ++ "+"
  | .drop pt t => String.ofList [pieceToChar pt] ++ "*" ++ squareToString t

/-! ## The graph -/

/-- `PreparedBook`. -/
structure PreparedBook where
  nodeCount : Nat
  moveCount : Nat
  positions : PackedSfen → Option Nat

/-- The variables of the loop of `ValidateAndIndex`. -/
structure Scan where
  expectedOffset : Nat
  previous : Option PackedSfen
  moveCount : Nat
  positions : PackedSfen → Option Nat

instance : DecidableEq PackedSfen := fun p q =>
  decidable_of_iff (p.data = q.data) ⟨fun h => by cases p; cases q; exact congrArg _ h, fun h => h ▸ rfl⟩

/-- The body of the loop of `ValidateAndIndex`. -/
def checkRecord (book : MappedYbb) (selectedCount : Nat) (st : Scan) (i : Nat) : Except Failure Scan :=
  (book.entry i).bind fun entry =>
    let moveBytes := entry.moveCount.toNat * book.moveRecordSize
    let area := book.contents.length - book.movesBase
    if st.previous.any fun p => comparePackedSfen p entry.packedSfen ≠ .lt then
      .error (.thrown ("YBB index is not strictly sorted at record " ++ toString i))
    else if entry.movesOffset.toNat ≠ st.expectedOffset then
      .error (.thrown ("YBB move offsets are not contiguous at record " ++ toString i))
    else if area < st.expectedOffset ∨ area - st.expectedOffset < moveBytes then
      .error (.thrown ("YBB moves area is truncated at record " ++ toString i))
    else
      let st := { st with
        expectedOffset := st.expectedOffset + moveBytes, previous := some entry.packedSfen }
      if i < selectedCount then
        if (st.positions entry.packedSfen).isSome then
          .error (.thrown "duplicate PackedSfen in YBB index")
        else
          .ok { st with
            moveCount := st.moveCount + entry.moveCount.toNat
            positions := Function.update st.positions entry.packedSfen (some i) }
      else .ok st

/-- `selected_count`. -/
def selectedCount (book : MappedYbb) (maxPositions : Nat) : Nat :=
  if maxPositions = 0 then book.recordCount else min maxPositions book.recordCount

/-- `ValidateAndIndex`. -/
def validateAndIndex (book : MappedYbb) (maxPositions : Nat) : Except Failure PreparedBook :=
  if kExitDisallowed ≤ book.recordCount then
    .error (.thrown "YBB has too many positions for 32-bit graph IDs")
  else
    ((List.range book.recordCount).foldlM (checkRecord book (selectedCount book maxPositions))
        ⟨0, none, 0, fun _ => none⟩).bind fun st =>
      if book.movesBase + st.expectedOffset ≠ book.contents.length then
        .error (.thrown "YBB has trailing or missing moves data")
      else if 2 ^ 64 - 1 < st.moveCount then
        .error (.thrown "YBB move count exceeds address space")
      else .ok ⟨selectedCount book maxPositions, st.moveCount, st.positions⟩

/-- `std::numeric_limits<int>::min()`. -/
def intMin : Int := -2 ^ 31

/-- `best_eval` after the first loop of the worker. -/
def bestEval (book : MappedYbb) (entry : YbbIndexEntry) : Except Failure Int :=
  (List.range entry.moveCount.toNat).foldlM (fun best localMove =>
    (book.moveAt entry localMove).map fun record =>
      if plausibleMove record.move then max best record.eval.toInt else best) intMin

/-- What the second loop of the worker stores for a move. -/
def resolveMove (options : Options) (prepared : PreparedBook) (gote : Bool) (best : Int)
    (board : ShogiBoard) (legalMoves : MoveList) (record : YbbMoveRecord) : Except Failure Nat :=
  if plausibleMove record.move = false then .ok kExitDisallowed
  else if gote = true ∧ record.eval.toInt < best - options.evalMargin then .ok kExitDisallowed
  else if options.validateMoves = true ∧ (legalMoves.any fun m => m.raw == record.move) = false then
    .error (.thrown ("illegal stored move " ++ moveToString (.fromRaw record.move)))
  else
    (board.doMove (.fromRaw record.move)).toPackedSfen.elim
      (.error (.thrown "cannot encode child PackedSfen")) fun w =>
        .ok ((prepared.positions w.packed).getD kExitLeaf)

/-- The body of the second loop of the worker. -/
def storeChild (options : Options) (book : MappedYbb) (prepared : PreparedBook) (entry : YbbIndexEntry)
    (best : Int) (board : ShogiBoard) (legalMoves : MoveList) (children : Nat → Nat) (localMove : Nat) :
    Except Failure (Nat → Nat) :=
  let place := entry.movesOffset.toNat / book.moveRecordSize + localMove
  if prepared.moveCount ≤ place then .error (.thrown "move index exceeds selected graph")
  else
    (book.moveAt entry localMove).bind fun record =>
      (resolveMove options prepared (isGote entry.packedSfen) best board legalMoves record).map fun child =>
        Function.update children place child

/-- The body of the worker for a node. -/
def resolveNode (options : Options) (book : MappedYbb) (prepared : PreparedBook) (children : Nat → Nat)
    (node : Nat) : Except Failure (Nat → Nat) :=
  (book.entry node).bind fun entry =>
    (bestEval book entry).bind fun best =>
      (ShogiBoard.setFromPackedSfen entry.packedSfen entry.ply.toNat).elim
        (.error (.thrown "cannot decode PackedSfen")) fun board =>
          let legalMoves := if options.validateMoves then board.generateLegalMoves else []
          (List.range entry.moveCount.toNat).foldlM
            (storeChild options book prepared entry best board legalMoves) children

/-- The text that a worker puts before a message. -/
def inRecord (node : Nat) : Failure → Failure
  | .thrown what => .thrown ("record " ++ toString node ++ ": " ++ what)
  | .running => .running

/-- `ResolveChildren`: each node is taken by one worker, which writes the places of its own moves. -/
def resolveChildren (options : Options) (book : MappedYbb) (prepared : PreparedBook) :
    Except Failure (Nat → Nat) :=
  (List.range prepared.nodeCount).foldlM
    (fun children node => (resolveNode options book prepared children node).mapError (inRecord node))
    fun _ => kExitDisallowed

/-- `EdgeChild`. -/
def edgeChild (book : MappedYbb) (children : Nat → Nat) (node edge : Nat) : Nat :=
  children ((book.entryAt node).movesOffset.toNat / book.moveRecordSize + edge)

/-- `ExitGraph`; its nodes are in the index. -/
def exitGraph (book : MappedYbb) (nodeCount : Nat) (children : Nat → Nat) : Graph where
  nodeCount := nodeCount
  isGote node := isGote (book.entryAt node).packedSfen
  children node := (List.range (book.entryAt node).moveCount.toNat).map (edgeChild book children node)

/-! ## The policy -/

/-- The variables of `SelectGoteMove`; a move is kept with its record. -/
structure Choice where
  bestNormal : Option (Nat × YbbMoveRecord)
  bestExit : Option (Nat × YbbMoveRecord)
  bestDistance : Nat
  bestExitEval : Int

/-- The distance of an edge in `SelectGoteMove`. -/
def edgeDistance (distance : Nat → Nat) (child : Nat) : Nat :=
  if child = kExitLeaf then 1
  else if distance child ≠ kExitDistanceInfinite then (distance child + 1) % 2 ^ 32
  else kExitDistanceInfinite

/-- The update of `best_normal`. -/
def Choice.withNormal (c : Choice) (localMove : Nat) (record : YbbMoveRecord) : Choice :=
  if c.bestNormal.all fun current => current.2.eval.toInt < record.eval.toInt ∨
      record.eval = current.2.eval ∧ record.move.toNat < current.2.move.toNat then
    { c with bestNormal := some (localMove, record) }
  else c

/-- The update of `best_exit`. -/
def Choice.withExit (c : Choice) (distance localMove : Nat) (record : YbbMoveRecord) : Choice :=
  if distance < c.bestDistance ∨ distance = c.bestDistance ∧ (c.bestExitEval < record.eval.toInt ∨
      record.eval.toInt = c.bestExitEval ∧
        c.bestExit.any fun best => record.move.toNat < best.2.move.toNat) then
    { c with bestExit := some (localMove, record), bestDistance := distance
             bestExitEval := record.eval.toInt }
  else c

/-- The body of the loop of `SelectGoteMove`. -/
def considerGoteMove (book : MappedYbb) (children distance : Nat → Nat) (node : Nat) (c : Choice)
    (localMove : Nat) : Except Failure Choice :=
  (book.moveAt (book.entryAt node) localMove).map fun record =>
    if plausibleMove record.move = false then c
    else
      let c := c.withNormal localMove record
      let child := edgeChild book children node localMove
      if child = kExitDisallowed then c
      else c.withExit (edgeDistance distance child) localMove record

/-- `SelectGoteMove`. -/
def selectGoteMove (book : MappedYbb) (children distance : Nat → Nat) (node : Nat) :
    Except Failure (Option Nat) :=
  (book.entry node).bind fun entry =>
    if isGote entry.packedSfen = false ∨ entry.moveCount = 0#16 then .ok none
    else
      ((List.range entry.moveCount.toNat).foldlM (considerGoteMove book children distance node)
          ⟨none, none, kExitDistanceInfinite, intMin⟩).map fun c =>
        if distance node ≠ kExitDistanceInfinite ∧ c.bestExit.isSome then c.bestExit.map Prod.fst
        else c.bestNormal.map Prod.fst

/-- The first loop of `WriteOutput`. -/
def selectedMoves (book : MappedYbb) (nodeCount : Nat) (children distance : Nat → Nat) :
    Except Failure (List (Nat × Nat)) :=
  (List.range nodeCount).foldlM (fun selected node =>
    (book.entry node).bind fun entry =>
      if isGote entry.packedSfen = false then .ok selected
      else
        (selectGoteMove book children distance node).map fun move =>
          move.elim selected fun localMove => selected ++ [(node, localMove)]) []

/-- The second and the third loop of `WriteOutput`, in one pass: the entries and the moves that are
written. -/
def outputRecords (book : MappedYbb) (selected : List (Nat × Nat)) :
    Except Failure (List (YbbIndexEntry × YbbMoveRecord)) :=
  selected.mapM fun move =>
    (book.entry move.1).bind fun source =>
      (book.moveAt source move.2).map fun record => (source, record)

/-- The entry that is written for a position. -/
def outputEntry (source : YbbIndexEntry) (k : Nat) : YbbIndexEntry :=
  ⟨source.packedSfen, BitVec.ofNat 64 (k * ybbMoveRecordSize kYbbFlagMoveDepth), source.ply, 1#16⟩

/-- The bytes that `WriteOutput` writes. -/
def outputBytes (records : List (YbbIndexEntry × YbbMoveRecord)) : List (BitVec 8) :=
  ybbHeader (BitVec.ofNat 64 records.length) kYbbFlagMoveDepth ++
    ((records.zipIdx.flatMap fun r => encodeYbbIndexEntry (outputEntry r.1.1 r.2)) ++
      records.flatMap fun r => encodeYbbMoveRecord r.2)

/-- `WriteOutput`. -/
def writeOutput (book : MappedYbb) (nodeCount : Nat) (children distance : Nat → Nat) :
    Except Failure (List (BitVec 8)) :=
  (selectedMoves book nodeCount children distance).bind fun selected =>
    (outputRecords book selected).map outputBytes

/-! ## The program -/

/-- What `Run` has before it writes. -/
structure Solved where
  book : MappedYbb
  prepared : PreparedBook
  children : Nat → Nat
  solution : GoteExitSolution

/-- `Run` up to the solution. -/
def solve (options : Options) (path : String) (source : List (BitVec 8)) : Except Failure Solved :=
  (MappedYbb.ofFile path source).bind fun book =>
    (validateAndIndex book options.maxPositions).bind fun prepared =>
      (resolveChildren options book prepared).bind fun children =>
        (exitGraph book prepared.nodeCount children).solveGoteExitGraph.map fun solution =>
          ⟨book, prepared, children, solution⟩

/-- `Run`. -/
def generate (options : Options) (path : String) (source : List (BitVec 8)) :
    Except Failure (List (BitVec 8)) :=
  (solve options path source).bind fun s =>
    writeOutput s.book s.prepared.nodeCount s.children s.solution.distance

end GoteBook

end Shogi
