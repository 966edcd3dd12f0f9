import ShogiEngine.Shogi.MakeMove

/-!
# Move generation

`GenerateLegalMoves` of `shogi/board.cc`: the pin-based generator for positions without a
check, the evasion generator for positions with one, and the pawn-drop-mate test that calls
the evasion generator from either.

The source applies a move, tests and unmakes it; here the test runs on the board after the
move, and `undoMove_doMoveInternal` says that unmaking restores the board. A move buffer is the
list of the moves pushed to it, and an early return after the first push keeps the first move
of that list.

## Main definitions

- `computeBlockersForKing`, `generateBoardMovesNonCheck`, `generateDropMoves`
- `evasionMovesWith`, `hasLegalEvasion`, `generateLegalMoves`
-/

namespace Shogi

/-! ## Promotion -/

/-- `CanPromote`. -/
def canPromote (pt : PieceType) (us : Color) (src dst : Square) : Bool :=
  pt.canPromote && (src.inPromotionZone us || dst.inPromotionZone us)

/-- `RelativeRank`. -/
def relativeRank (r : Nat) : Color → Nat
  | .black => r
  | .white => 8 - r

/-- `MustPromote`. -/
def mustPromote (pt : PieceType) (us : Color) (dst : Square) : Bool :=
  if pt ≠ .pawn ∧ pt ≠ .lance ∧ pt ≠ .knight then false
  else
    let rel := relativeRank dst.rank us
    if pt = .knight then rel ≤ 1 else rel == 0

/-- The moves that the generators push for one source and one destination. -/
def moveVariants (pt : PieceType) (us : Color) (src dst : Square) : MoveList :=
  (if canPromote pt us src dst then [.promotion src dst] else []) ++
    if !mustPromote pt us dst then [.normal src dst] else []

/-- The squares of `b` that pass a test, collected by a `Pop` loop. -/
def Bitboard.filter (b : Bitboard) (p : Square → Bool) : Bitboard :=
  b.squares.foldl (fun bb s => if p s then bb.set s else bb) .zero

/-- The rank and file restrictions on the targets of a drop. -/
def dropTargets (us : Color) (ourPawns : Bitboard) (pt : PieceType) (targets : Bitboard) :
    Bitboard :=
  let targets :=
    if pt = .pawn ∨ pt = .lance then
      targets &&& ~~~rankBB (match us with | .black => 0 | .white => 8)
    else targets
  let targets :=
    if pt = .knight then
      match us with
      | .black => targets &&& ~~~rankBB 0 &&& ~~~rankBB 1
      | .white => targets &&& ~~~rankBB 7 &&& ~~~rankBB 8
    else targets
  if pt = .pawn then
    (List.range 9).foldl (fun targets f =>
      if (ourPawns &&& fileBB f).any then targets &&& ~~~fileBB f else targets) targets
  else targets

namespace ShogiBoard

/-! ## Pins -/

/-- One loop of `ComputeBlockersForKing`: a man that stands alone between the king and a
candidate is a blocker. -/
def addBlockers (b : ShogiBoard) (ksq : Square) (candidates blockers : Bitboard) : Bitboard :=
  candidates.squares.foldl (fun blockers pinner =>
    let between := betweenBB ksq pinner &&& b.occupied
    if between.any && !between.moreThanOne then blockers ||| between else blockers) blockers

/-- `ComputeBlockersForKing`. -/
def computeBlockersForKing (b : ShogiBoard) (kingColor : Color) : Bitboard :=
  let ksq := b.kingSquare kingColor
  let enemy := ~~~kingColor
  let rookPinners := b.piecesOf enemy .rook ||| b.piecesOf enemy .dragon
  let bishopPinners := b.piecesOf enemy .bishop ||| b.piecesOf enemy .horse
  let lancePinners := b.piecesOf enemy .lance
  let blockers := b.addBlockers ksq (rookEffectBB ksq &&& rookPinners) .zero
  let blockers := b.addBlockers ksq (bishopEffectBB ksq &&& bishopPinners) blockers
  b.addBlockers ksq (lanceMaskBB ksq kingColor &&& lancePinners) blockers

/-! ## Without a check -/

/-- The legal destinations of the man on `src`, when there is no check. -/
def nonCheckTargets (b : ShogiBoard) (pinned : Bitboard) (src : Square) : Bitboard :=
  let us := b.sideToMove
  let ksq := b.kingSquare us
  let our := b.pieces us
  let occ := b.occupied
  let occWithoutKing := occ ^^^ squareBB ksq
  let targets := pieceAttacks (b.board src).type us src occ &&& ~~~our
  if src = ksq then
    targets.filter fun dst => !b.isSquareAttacked dst occWithoutKing (~~~us)
  else if pinned.test src then targets &&& lineBB src ksq
  else targets

/-- `GenerateBoardMovesNonCheck`. -/
def generateBoardMovesNonCheck (b : ShogiBoard) (pinned : Bitboard) : MoveList :=
  let us := b.sideToMove
  (b.pieces us).squares.flatMap fun src =>
    (b.nonCheckTargets pinned src).squares.flatMap (moveVariants (b.board src).type us src)

/-- `GenerateDropMoves`. -/
def generateDropMoves (b : ShogiBoard) : MoveList :=
  let us := b.sideToMove
  let emptySq := ~~~b.occupied &&& .all
  PieceType.handTypes.flatMap fun pt =>
    if !(b.hand us).has pt then []
    else (dropTargets us (b.piecesOf us .pawn) pt emptySq).squares.map (.drop pt)

/-! ## In check -/

/-- Does the pawn that `IsLegal` and `GenerateLegalMoves` drop on `dst` attack the enemy king? -/
def pawnDropChecks (b : ShogiBoard) (dst : Square) : Bool :=
  (pawnEffectBB dst b.sideToMove).test (b.kingSquare (~~~b.sideToMove))

/-- `IsLegal`, with the evasion test that it calls. -/
def isLegalWith (hasEvasion : ShogiBoard → Bool) (b : ShogiBoard) (m : Move)
    (pinned : Bitboard) : Bool :=
  let us := b.sideToMove
  let ksq := b.kingSquare us
  let boardMove (src dst : Square) : Bool :=
    if src = ksq then (b.attackersTo dst (b.occupied ^^^ squareBB ksq) (~~~us)).empty
    else if pinned.empty then true
    else if !pinned.test src then true
    else (lineBB src ksq).test dst
  match m with
  | .drop pt dst =>
    if pt = .pawn && b.pawnDropChecks dst then hasEvasion (b.doMoveForMovegen m) else true
  | .normal src dst => boardMove src dst
  | .promotion src dst => boardMove src dst

/-- The king moves of `GenerateEvasionMovesImpl`. -/
def kingEvasions (b : ShogiBoard) : MoveList :=
  let us := b.sideToMove
  let ksq := b.kingSquare us
  ((kingEffectBB ksq &&& ~~~b.pieces us).squares.filter fun dst =>
    !b.isSquareAttacked dst (b.occupied.clear ksq) (~~~us)).map (.normal ksq)

/-- The captures and interpositions by men on the board, against a single checker. -/
def boardEvasions (b : ShogiBoard) (checker : Square) (pinned : Bitboard) : MoveList :=
  let us := b.sideToMove
  let ksq := b.kingSquare us
  let occ := b.occupied
  ((betweenBB ksq checker).set checker).squares.flatMap fun dst =>
    ((b.attackersTo dst occ us).clear ksq).squares.flatMap fun src =>
      if pinned.test src && !(lineBB src ksq).test dst then []
      else moveVariants (b.board src).type us src dst

/-- The interpositions by drops. -/
def dropEvasions (hasEvasion : ShogiBoard → Bool) (b : ShogiBoard) (checker : Square)
    (pinned : Bitboard) : MoveList :=
  let us := b.sideToMove
  let emptyBetween := betweenBB (b.kingSquare us) checker &&& ~~~b.occupied
  PieceType.handTypes.flatMap fun pt =>
    if !(b.hand us).has pt then []
    else
      (dropTargets us (b.piecesOf us .pawn) pt emptyBetween).squares.flatMap fun dst =>
        if pt != .pawn || isLegalWith hasEvasion b (.drop pt dst) pinned then [.drop pt dst]
        else []

/-- `GenerateEvasionMovesImpl` with the evasion test that its pawn drops call. The caller
guarantees a check; without one the source pops from an empty set. -/
def evasionMovesWith (hasEvasion : ShogiBoard → Bool) (b : ShogiBoard) (stopAfterOne : Bool) :
    MoveList :=
  let us := b.sideToMove
  let checkers := b.attackersTo (b.kingSquare us) b.occupied (~~~us)
  let moves :=
    if checkers.moreThanOne then b.kingEvasions
    else
      match checkers.pop with
      | none => b.kingEvasions
      | some (checker, _) =>
        let pinned := b.computeBlockersForKing us &&& b.pieces us
        b.kingEvasions ++ b.boardEvasions checker pinned ++
          dropEvasions hasEvasion b checker pinned
  if stopAfterOne then moves.take 1 else moves

/-- The evasion test, at most `n` calls deep. -/
def hasLegalEvasionFuel : Nat → ShogiBoard → Bool
  | 0, _ => false
  | n + 1, b => !(evasionMovesWith (hasLegalEvasionFuel n) b true).isEmpty

/-- Every nested call comes after the drop of a pawn, so the pawns in hand bound the depth. -/
def evasionDepth (b : ShogiBoard) : Nat :=
  (b.hand .black).count .pawn + (b.hand .white).count .pawn + 1

/-- `HasLegalEvasion`. -/
def hasLegalEvasion (b : ShogiBoard) : Bool := hasLegalEvasionFuel b.evasionDepth b

/-- `IsLegal`. -/
def isLegal (b : ShogiBoard) (m : Move) (pinned : Bitboard) : Bool :=
  isLegalWith hasLegalEvasion b m pinned

/-- `GenerateEvasionMoves`. -/
def generateEvasionMoves (b : ShogiBoard) : MoveList := evasionMovesWith hasLegalEvasion b false

/-- `GenerateLegalMoves`. -/
def generateLegalMoves (b : ShogiBoard) : MoveList :=
  let us := b.sideToMove
  if !b.inCheck us then
    let pinned := b.computeBlockersForKing us &&& b.pieces us
    b.generateBoardMovesNonCheck pinned ++
      b.generateDropMoves.filter fun m =>
        match m with
        | .drop pt dst =>
          !(pt = .pawn && b.pawnDropChecks dst && !hasLegalEvasion (b.doMoveForMovegen m))
        | _ => true
  else b.generateEvasionMoves

end ShogiBoard

end Shogi
