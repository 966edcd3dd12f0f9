import ShogiEngine.Mate.CheckingGame

/-!
# The shallow mate probe

The depth-bounded mate search of `mate/shallow_mate.h`, with its cooperative cancellation. The
search plays on one board and takes every move back.

## Main definitions

- `SearchLimits.shouldStop`: the source's function, for any answers of the stop flag and the clock
- `mateIn3Ply`, `mateInOddPly`, `mateInEvenPly`: the AND/OR search
- `hasMateWithin`, `probeMateWithin`: the public interface
-/

namespace Shogi

namespace ShallowMate

/-! ## Cancellation -/

/-- What `ShouldStop` finds at each of its calls: the stop flag, if there is one, and whether the
clock has reached the deadline, if there is one. -/
structure Schedule where
  stop : Option (Nat → Bool)
  deadline : Option (Nat → Bool)

/-- The fields of `SearchLimits` that a search changes; `calls` counts the calls of `ShouldStop`. -/
structure SearchLimits where
  cancelled : Bool
  clockPollCounter : BitVec 32
  calls : Nat
  deriving DecidableEq, Repr

/-- `ShouldStop`. -/
def SearchLimits.shouldStop (l : SearchLimits) (answers : Schedule) : Bool × SearchLimits :=
  let stopRequested := answers.stop.any fun flag => flag l.calls
  -- the clock is read at one call in 64
  let deadlinePassed := answers.deadline.any fun passed =>
    decide (l.clockPollCounter &&& 63#32 = 0#32) && passed l.calls
  let l := { l with
    calls := l.calls + 1
    clockPollCounter :=
      if answers.deadline.isSome then l.clockPollCounter + 1#32 else l.clockPollCounter }
  if stopRequested || deadlinePassed then (true, { l with cancelled := true }) else (false, l)

/-- What a probe works on. -/
structure ProbeState where
  board : ShogiBoard
  limits : SearchLimits

/-- A piece of the search. -/
abbrev Probe := StateM ProbeState

/-- What a probe is called with: the limits, `none` for a null pointer, and
`FindMateInOneNonCheck`. -/
structure Env where
  limits : Option Schedule
  findMateInOneNonCheck : ShogiBoard → Option Move

/-- A question to the board that leaves it as it is. -/
def ask {α : Type} (f : ShogiBoard → α) : Probe α := fun s => (f s.board, s)

/-- `DoMove`; `givesCheck` is what the caller knows about the check. -/
def doMove (m : Move) (givesCheck : Option Bool) : Probe UndoInfo := fun s =>
  let r := s.board.doMoveInternal m true givesCheck
  (r.2, { s with board := r.1 })

/-- `UndoMove`. -/
def undoMove (m : Move) (undo : UndoInfo) : Probe Unit := fun s =>
  ((), { s with board := s.board.undoMove m undo })

namespace Env

variable (env : Env)

/-- `limits && limits->ShouldStop()`. -/
def shouldStop : Probe Bool := fun s =>
  match env.limits with
  | none => (false, s)
  | some answers =>
    let r := s.limits.shouldStop answers
    (r.1, { s with limits := r.2 })

/-- `limits && limits->cancelled`. -/
def cancelled : Probe Bool := fun s => (env.limits.isSome && s.limits.cancelled, s)

/-! ## Mate in one -/

/-- The loop of `FindMateInOne` over the checks of a side that is in check itself. -/
def mateAmong : MoveList → Probe (Option Move)
  | [] => pure none
  | m :: rest => do
    let undo ← doMove m (some true)
    let mate ← ask fun b => !b.hasLegalEvasion
    undoMove m undo
    if mate then return some m
    mateAmong rest

/-- `FindMateInOne`. -/
def findMateInOne : Probe (Option Move) := do
  if ← ask fun b => (b.kingSq .black).isNone || (b.kingSq .white).isNone then return none
  if ← ask fun b => !b.inCheck b.sideToMove then return ← ask env.findMateInOneNonCheck
  mateAmong (← ask ShogiBoard.generateCheckingMoves)

/-- The checks of an OR node. -/
def checkingMoves (inCheck : Bool) (b : ShogiBoard) : MoveList :=
  if inCheck then b.generateCheckingMoves else b.generateCheckingMovesNonCheck

/-! ## Mate in three -/

/-- The loop of `MateIn3Ply` over the evasions; its result is `all_evasions_lose`. -/
def allEvasionsLose : MoveList → Probe Bool
  | [] => pure true
  | m2 :: rest => do
    if ← env.shouldStop then return false
    let undo2 ← doMove m2 none
    -- a countercheck counts as an escape
    if undo2.gaveCheck then
      undoMove m2 undo2
      return false
    match ← ask ShogiBoard.repetition with
    | .loss | .draw =>
      undoMove m2 undo2
      return false
    | .win =>
      undoMove m2 undo2
      allEvasionsLose rest
    | .none =>
      let foundMate1 ← ask fun b => (env.findMateInOneNonCheck b).isSome
      undoMove m2 undo2
      if ← env.shouldStop then return false
      if !foundMate1 then return false
      allEvasionsLose rest

/-- The loop of `MateIn3Ply` over the checks. -/
def mateIn3PlyLoop : MoveList → Probe Bool
  | [] => pure false
  | m1 :: rest => do
    if ← env.shouldStop then return false
    let undo1 ← doMove m1 (some true)
    match ← ask ShogiBoard.repetition with
    | .win | .draw =>
      undoMove m1 undo1
      mateIn3PlyLoop rest
    | .loss =>
      undoMove m1 undo1
      return true
    | .none =>
      let evasions ← ask ShogiBoard.generateEvasionMoves
      if evasions.isEmpty then
        undoMove m1 undo1
        return true
      let lose ← env.allEvasionsLose evasions
      undoMove m1 undo1
      if ← env.cancelled then return false
      if lose then return true
      mateIn3PlyLoop rest

/-- `MateIn3Ply`. -/
def mateIn3Ply (inCheck : Bool) : Probe Bool := do
  if ← env.shouldStop then return false
  env.mateIn3PlyLoop (← ask (checkingMoves inCheck))

/-! ## The general nodes -/

/-- The loop of `MateInOddPly`; `even` is the search one ply less deep. -/
def mateInOddPlyLoop (even : Probe Bool) : MoveList → Probe Bool
  | [] => pure false
  | m :: rest => do
    if ← env.shouldStop then return false
    let undo ← doMove m (some true)
    match ← ask ShogiBoard.repetition with
    | .loss =>
      undoMove m undo
      return true
    | .win | .draw =>
      undoMove m undo
      mateInOddPlyLoop even rest
    | .none =>
      let sub ← even
      undoMove m undo
      if ← env.cancelled then return false
      if sub then return true
      mateInOddPlyLoop even rest

/-- The loop of `MateInEvenPly`; `odd` is the search one ply less deep, for an attacker in check or
not. -/
def mateInEvenPlyLoop (odd : Bool → Probe Bool) : MoveList → Probe Bool
  | [] => pure true
  | m :: rest => do
    if ← env.shouldStop then return false
    let undo ← doMove m none
    match ← ask ShogiBoard.repetition with
    | .win =>
      undoMove m undo
      mateInEvenPlyLoop odd rest
    | .loss | .draw =>
      undoMove m undo
      return false
    | .none =>
      let sub ← odd undo.gaveCheck
      undoMove m undo
      if ← env.cancelled then return false
      if !sub then return false
      mateInEvenPlyLoop odd rest

/-- `MateInEvenPly` at a positive depth; depth zero is never instantiated, since `MateInOddPly` has
its own code for depth one. -/
def mateInEvenPly (odd : Bool → Probe Bool) : Probe Bool := do
  if ← env.shouldStop then return false
  let moves ← ask ShogiBoard.generateEvasionMoves
  if moves.isEmpty then return true
  env.mateInEvenPlyLoop odd moves

/-- `MateInOddPly`, with the specializations for depths one and three. Even depths are ruled out by
a `static_assert`. -/
def mateInOddPly : Nat → Bool → Probe Bool
  | 0, _ => pure false
  | 1, inCheck => do
    if ← env.shouldStop then return false
    if inCheck then return (← env.findMateInOne).isSome
    ask fun b => (env.findMateInOneNonCheck b).isSome
  | 2, _ => pure false
  | 3, inCheck => env.mateIn3Ply inCheck
  | d + 4, inCheck => do
    if ← env.shouldStop then return false
    env.mateInOddPlyLoop (env.mateInEvenPly (mateInOddPly (d + 2)))
      (← ask (checkingMoves inCheck))

/-! ## The interface -/

/-- `HasMateWithin`. -/
def hasMateWithin (depth : Int) : Probe Bool := do
  let inCheck ← ask fun b => b.inCheck b.sideToMove
  if depth = 1 then env.mateInOddPly 1 inCheck
  else if depth = 3 then env.mateInOddPly 3 inCheck
  else if depth = 5 then env.mateInOddPly 5 inCheck
  else if depth = 7 then env.mateInOddPly 7 inCheck
  else return false

end Env

/-- `ProbeResult`. -/
inductive ProbeResult
  | mate
  | noMate
  | cancelled
  deriving DecidableEq, Repr

/-- `ProbeMateWithin`. -/
def Env.probeMateWithin (env : Env) (depth : Int) : Probe ProbeResult := do
  if env.limits.isSome then
    modify fun s => { s with limits := { s.limits with cancelled := false, clockPollCounter := 0#32 } }
  let mate ← env.hasMateWithin depth
  if ← env.cancelled then return .cancelled
  return if mate then .mate else .noMate

end ShallowMate

end Shogi
