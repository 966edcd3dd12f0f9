import Mathlib.Data.Rat.Defs
import Mathlib.Logic.Function.Basic
import ShogiEngine.Library.Negamax
import ShogiEngine.Shogi.Repetition

/-!
# The search tree

What the search asks of a board, and the memory that the search threads share: the nodes
(`uct_node_t`) and their edges (`child_node_t`), field by field, and the mutexes.

## Main definitions

- `Rules`: the questions to a board and their order, `adjudicate` and `noMove`
- `Memory`: all nodes and edges
- `Rules.game`: the verdicts and moves that decide the value of a position
-/

namespace Shogi.Mcts

/-! ## Positions -/

/-- The value of a `float`; `none` if it is not finite. -/
abbrev Num := Option ℚ

/-- `EdgeOutcome`, for the player who traversed the edge. -/
inductive EdgeOutcome
  | win
  | loss
  | draw
  deriving DecidableEq, Repr

/-- The flag that `ResolveTerminalEdge` sets: the result for the player to move behind the edge. -/
def EdgeOutcome.flag : EdgeOutcome → Outcome
  | .win => .loss
  | .loss => .win
  | .draw => .draw

/-- The value that `ResolveTerminalEdge` returns. -/
def EdgeOutcome.value (drawValue : Num) : EdgeOutcome → Num
  | .win => some 1
  | .loss => some 0
  | .draw => drawValue

/-- The value that `TryGetProvenEdgeValue` returns for a flag. -/
def provenValue (drawValue : Num) : Outcome → Num
  | .win => some 0
  | .loss => some 1
  | .draw => drawValue

/-- What the search asks of a board, and its limits. `hasMate` is the test for a mate at a leaf,
`drawValue` the value of a draw for the player who has just moved, and `mutexIndex` the place of the
board's mutex. -/
structure Rules (P M : Type) where
  canDeclareWin : P → Bool
  checkRepetition : P → RepetitionResult
  ply : P → Int
  maxMovesToDraw : Int
  generateLegalMoves : P → List M
  inCheck : P → Bool
  generateEvasionMoves : P → List M
  hasMate : P → Bool
  doMove : P → M → P
  drawValue : P → Num
  mutexIndex : P → Nat
  useButterfly : Bool

namespace Rules

variable {P M : Type} (R : Rules P M)

/-- `GetSearchRepetitionResult`. -/
def getSearchRepetitionResult (p : P) (atRoot : Bool) : RepetitionResult :=
  if atRoot then .none else R.checkRepetition p

/-- The answer of `UctSearch` to a repetition. -/
def repetitionOutcome : RepetitionResult → Option EdgeOutcome
  | .loss => some .win
  | .win => some .loss
  | .draw => some .draw
  | .none => none

/-- The verdicts of `UctSearch` that need no look at the tree: declaration, repetition, ply limit. -/
def adjudicate (p : P) (atRoot : Bool) : Option EdgeOutcome :=
  if R.canDeclareWin p then some .loss
  else if R.getSearchRepetitionResult p atRoot ≠ .none then
    repetitionOutcome (R.getSearchRepetitionResult p atRoot)
  else if R.maxMovesToDraw < R.ply p then
    some (if (R.generateLegalMoves p).isEmpty then .win else .draw)
  else none

/-- `!has_move` at a first visit. -/
def noMove (p : P) : Bool :=
  if R.inCheck p then (R.generateEvasionMoves p).isEmpty else (R.generateLegalMoves p).isEmpty

/-- The verdict at a position below the root, for the player to move: what `UctSearch` finds before it
looks at the moves one by one. -/
def verdict (p : P) : Option Outcome :=
  if R.adjudicate p false ≠ none then (R.adjudicate p false).map EdgeOutcome.flag
  else if R.hasMate p then some .win
  else if R.noMove p then some .loss
  else none

/-- The game as the search sees it. -/
def game : Negamax P M := ⟨R.verdict, R.generateLegalMoves, R.doMove⟩

end Rules

/-! ## Nodes and edges -/

/-- `uct_node_t::state`. -/
inductive NodeState
  | fresh
  | evaluated
  | expanded
  deriving DecidableEq, Repr

abbrev Addr := Nat

/-- `trajectory_t`: a node and the index of one of its children. -/
abbrev Edge := Addr × Nat

/-- A playout that was backed up: its edges, last first, and its value for the player who traversed the
last edge. -/
structure Playout where
  path : List Edge
  value : ℚ
  deriving DecidableEq

/-- The fields of all nodes, then of all edges, and the mutexes. Nodes at `next` and above do not exist
yet. The last four fields only record: the position of a node, how often it was evaluated, how often a
child array was allocated for it, and the accepted playouts, newest first. -/
structure Memory (ι P M : Type) where
  state : Addr → NodeState
  moveCount : Addr → Int
  win : Addr → ℚ
  visitedNnrate : Addr → Num
  childNum : Addr → Nat
  childMove : Edge → Option M
  childNode : Edge → Option Addr
  childFlags : Edge → Outcome → Bool
  childNnrate : Edge → Num
  childMoveCount : Edge → Int
  childWin : Edge → ℚ
  mutex : Nat → Option ι
  next : Addr
  pos : Addr → P
  evals : Addr → Nat
  arrays : Addr → Nat
  playouts : List Playout

namespace Memory

variable {ι P M : Type} (m : Memory ι P M)

def setState (a : Addr) (s : NodeState) : Memory ι P M :=
  { m with state := Function.update m.state a s }

def addMoveCount (a : Addr) (n : Int) : Memory ι P M :=
  { m with moveCount := Function.update m.moveCount a (m.moveCount a + n) }

def addWin (a : Addr) (x : ℚ) : Memory ι P M :=
  { m with win := Function.update m.win a (m.win a + x) }

def setVisitedNnrate (a : Addr) (x : Num) : Memory ι P M :=
  { m with visitedNnrate := Function.update m.visitedNnrate a x }

def setChildNum (a : Addr) (n : Nat) : Memory ι P M :=
  { m with childNum := Function.update m.childNum a n }

/-- `child = std::make_unique<child_node_t[]>(child_num)`. -/
def newArray (a : Addr) : Memory ι P M :=
  { m with
    childMove := fun e => if e.1 = a then none else m.childMove e
    childNode := fun e => if e.1 = a then none else m.childNode e
    childFlags := fun e => if e.1 = a then fun _ => false else m.childFlags e
    childNnrate := fun e => if e.1 = a then some 0 else m.childNnrate e
    childMoveCount := fun e => if e.1 = a then 0 else m.childMoveCount e
    childWin := fun e => if e.1 = a then 0 else m.childWin e
    arrays := Function.update m.arrays a (m.arrays a + 1) }

def setChildMove (e : Edge) (x : Option M) : Memory ι P M :=
  { m with childMove := Function.update m.childMove e x }

def setChildNnrate (e : Edge) (x : Num) : Memory ι P M :=
  { m with childNnrate := Function.update m.childNnrate e x }

/-- `SetWin`, `SetLose` and `SetDraw`. -/
def setFlag (e : Edge) (o : Outcome) : Memory ι P M :=
  { m with childFlags := Function.update m.childFlags e (Function.update (m.childFlags e) o true) }

/-- A flag of the edge traversed last, if there is one. -/
def setParentFlag (path : List Edge) (o : Outcome) : Memory ι P M :=
  path.head?.elim m fun e => m.setFlag e o

def addChildMoveCount (e : Edge) (n : Int) : Memory ι P M :=
  { m with childMoveCount := Function.update m.childMoveCount e (m.childMoveCount e + n) }

def addChildWin (e : Edge) (x : ℚ) : Memory ι P M :=
  { m with childWin := Function.update m.childWin e (m.childWin e + x) }

def setMutex (n : Nat) (i : Option ι) : Memory ι P M :=
  { m with mutex := Function.update m.mutex n i }

/-- A new node behind an edge, at a position. -/
def publishChild (e : Edge) (p : P) : Memory ι P M :=
  { m with
    childNode := Function.update m.childNode e (some m.next)
    pos := Function.update m.pos m.next p
    next := m.next + 1 }

section Lookup

variable {m} {a b : Addr} {e e' : Edge} {n k : Nat} {s : NodeState} {x : Option M}

@[simp] theorem state_setState_self : (m.setState a s).state a = s := Function.update_self ..

theorem state_setState_of_ne (h : b ≠ a) : (m.setState a s).state b = m.state b :=
  Function.update_of_ne h ..

@[simp] theorem childNum_setChildNum_self : (m.setChildNum a n).childNum a = n :=
  Function.update_self ..

theorem childMove_setChildMove_self : (m.setChildMove e x).childMove e = x :=
  Function.update_self ..

theorem childMove_setChildMove_of_ne (h : e' ≠ e) :
    (m.setChildMove e x).childMove e' = m.childMove e' :=
  Function.update_of_ne h ..

@[simp] theorem childNode_newArray : (m.newArray a).childNode (a, k) = none := if_pos rfl

@[simp] theorem childFlags_newArray : (m.newArray a).childFlags (a, k) = fun _ => false :=
  if_pos rfl

end Lookup

section PublishChild

variable {m} {e e' : Edge} {p : P} {a : Addr}

@[simp] theorem childNode_publishChild_self : (m.publishChild e p).childNode e = some m.next :=
  Function.update_self ..

theorem childNode_publishChild_of_ne (h : e' ≠ e) :
    (m.publishChild e p).childNode e' = m.childNode e' :=
  Function.update_of_ne h ..

@[simp] theorem pos_publishChild_self : (m.publishChild e p).pos m.next = p :=
  Function.update_self ..

theorem pos_publishChild_of_lt (h : a < m.next) : (m.publishChild e p).pos a = m.pos a :=
  Function.update_of_ne h.ne ..

end PublishChild

def countEval (a : Addr) : Memory ι P M :=
  { m with evals := Function.update m.evals a (m.evals a + 1) }

def logPlayout (p : Playout) : Memory ι P M :=
  { m with playouts := p :: m.playouts }

end Memory

end Shogi.Mcts
