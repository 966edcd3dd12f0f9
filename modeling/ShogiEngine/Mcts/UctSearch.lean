import ShogiEngine.Library.Threads
import ShogiEngine.Mcts.SearchTree

/-!
# The search threads

`ParallelUctSearch` with `UctSearch`, `SelectPuctChild` and `BackupTrajectory`, and the reports that the
search threads make. Every access to an atomic is a step of its own, and so is every write into a node
that has not been published.

## Main definitions

- `Pc`: where a thread is
- `Act`: the steps
- `searchers`, `Grown`: the threads, and the trees that searches and moves of the root leave behind
-/

namespace Shogi.Mcts

/-! ## Where a thread is -/

/-- One call of `UctSearch`: the board, the node, and the edges that led here from the root, last
first. -/
structure Visit (P : Type) where
  board : P
  node : Addr
  path : List Edge

/-- The arithmetic of `SelectPuctChild` on `float`. `score` is given whether the node is the root, the
three sums of the node, visits and wins of the child (`none` without visits) and its prior. -/
structure PuctOps (S : Type) where
  negInf : S
  score : Bool → Int → ℚ → Num → Option (Int × ℚ) → Num → S
  lt : S → S → Bool

/-- The local variables of `SelectPuctChild`. -/
structure Scan (S : Type) where
  sum : Int
  sumWin : ℚ
  visited : Num
  bestScore : S
  best : Nat
  allChildrenWin : Bool
  allChildrenWinOrDraw : Bool
  hasDraw : Bool

/-- Before the loop. -/
def Scan.init {S : Type} (ops : PuctOps S) (sum : Int) (sumWin : ℚ) (visited : Num) : Scan S :=
  ⟨sum, sumWin, visited, ops.negInf, 0, true, true, false⟩

/-- Child `k` with its score. -/
def Scan.offer {S : Type} (ops : PuctOps S) (s : Scan S) (k : Nat) (x : S) : Scan S :=
  if ops.lt s.bestScore x then { s with bestScore := x, best := k } else s

/-- A child that is not proven to win for the opponent. -/
def Scan.seeDraw {S : Type} (s : Scan S) (isDraw : Bool) : Scan S :=
  if isDraw then { s with hasDraw := true } else { s with allChildrenWinOrDraw := false }

/-- Where a thread goes when it has unlocked the mutex. -/
inductive Next
  | expand
  | children
  | backup (value : Num)

/-- Where a thread is. `resolve` holds the mutex if `locked`. -/
inductive Pc (P S : Type)
  | idle
  | joined
  -- `UctSearch`
  | proven (v : Visit P) (o : Outcome)
  | adjudicate (v : Visit P)
  | resolve (v : Visit P) (o : EdgeOutcome) (locked : Bool)
  | checkEvaled (v : Visit P)
  | lockEval (v : Visit P)
  | recheckEvaled (v : Visit P)
  | firstVisit (v : Visit P)
  | noMoves (v : Visit P)
  | publishNoMoves (v : Visit P)
  | evaluateLeaf (v : Visit P)
  | setEvaled (v : Visit P) (valueWin : Num)
  | unlock (v : Visit P) (next : Next)
  | checkExpanded (v : Visit P)
  | lockExpand (v : Visit P)
  | recheckExpanded (v : Visit P)
  -- `ExpandNode` and `ComputePriors`
  | expandNode (v : Visit P)
  | newArray (v : Visit P)
  | writeMove (v : Visit P) (k : Nat)
  | writePrior (v : Visit P) (k : Nat)
  | clearVisited (v : Visit P)
  | setExpanded (v : Visit P)
  | readChildNum (v : Visit P)
  -- `SelectPuctChild`
  | loadSum (v : Visit P)
  | loadSumWin (v : Visit P) (sum : Int)
  | loadVisited (v : Visit P) (sum : Int) (sumWin : ℚ)
  | scan (v : Visit P) (k : Nat) (s : Scan S)
  | scanWin (v : Visit P) (k : Nat) (s : Scan S)
  | scanDraw (v : Visit P) (k : Nat) (s : Scan S)
  | scanCount (v : Visit P) (k : Nat) (s : Scan S)
  | scanChildWin (v : Visit P) (k : Nat) (s : Scan S) (n : Int)
  | setParent (v : Visit P) (o : Outcome) (k : Nat)
  | addVisited (v : Visit P) (k : Nat)
  -- the descent
  | addNode (v : Visit P) (k : Nat)
  | addEdge (v : Visit P) (k : Nat)
  | getChild (v : Visit P) (k : Nat)
  | createChild (v : Visit P) (k : Nat)
  | descend (v : Visit P) (k : Nat) (b : Addr)
  -- `BackupTrajectory`
  | backup (path : List Edge) (value : Num)
  | validate (p : Playout) (todo : List Edge)
  | updateNode (p : Playout) (todo : List Edge) (value : ℚ)
  | updateEdge (p : Playout) (e : Edge) (todo : List Edge) (value : ℚ)
  | unwindNode (todo : List Edge)
  | unwindEdge (e : Edge) (todo : List Edge)
  -- `UpdateButterfly`, `GetPV`, `CaptureRootSnapshot`
  | butterfly (todo : List Edge)
  | report
  | checkNode (a : Addr)
  | readNode (a : Addr)

namespace Pc

variable {P S : Type}

/-- The call of `UctSearch`: without an edge above there is no flag to look at. -/
def enter (v : Visit P) : Pc P S :=
  if v.path = [] then .adjudicate v else .proven v .win

/-- After a flag that is not set. -/
def afterProven (v : Visit P) : Outcome → Pc P S
  | .win => .proven v .loss
  | .loss => .proven v .draw
  | .draw => .adjudicate v

def afterUnlock (v : Visit P) : Next → Pc P S
  | .expand => .checkExpanded v
  | .children => .readChildNum v
  | .backup value => .backup v.path value

/-- After the loop of `SelectPuctChild`. -/
def afterScan (v : Visit P) (s : Scan S) : Pc P S :=
  if s.allChildrenWin then .setParent v .loss s.best
  else if s.allChildrenWinOrDraw && s.hasDraw then .setParent v .draw s.best
  else .addVisited v s.best

end Pc

/-! ## The steps -/

section Act

variable {ι P M S : Type} (R : Rules P M) (ops : PuctOps S) (root : Addr) (i : ι)

/-- One step of thread `i`. -/
inductive Act : Memory ι P M → Pc P S → Memory ι P M → Pc P S → Prop
  /-- `IsSearchActive` answers yes. -/
  | start (m) : Act m .idle m (.enter ⟨m.pos root, root, []⟩)
  /-- `IsSearchActive` answers no. -/
  | stop (m) : Act m .idle m .joined
  | proven (m v e rest o) (path : v.path = e :: rest) :
      Act m (.proven v o) m
        (if m.childFlags e o then .backup v.path (provenValue (R.drawValue v.board) o)
        else .afterProven v o)
  | adjudicated (m v o) (verdict : R.adjudicate v.board v.path.isEmpty = some o) :
      Act m (.adjudicate v) m (.resolve v o false)
  | notAdjudicated (m v) (verdict : R.adjudicate v.board v.path.isEmpty = none) :
      Act m (.adjudicate v) m (.checkEvaled v)
  | resolve (m v o locked) :
      Act m (.resolve v o locked) (m.setParentFlag v.path o.flag)
        (if locked then .unlock v (.backup (o.value (R.drawValue v.board)))
        else .backup v.path (o.value (R.drawValue v.board)))
  | checkEvaled (m v) :
      Act m (.checkEvaled v) m
        (if m.state v.node = .fresh then .lockEval v else .checkExpanded v)
  | lockEval (m v) (free : m.mutex (R.mutexIndex v.board) = none) :
      Act m (.lockEval v) (m.setMutex (R.mutexIndex v.board) (some i)) (.recheckEvaled v)
  | recheckEvaled (m v) :
      Act m (.recheckEvaled v) m
        (if m.state v.node = .fresh then .firstVisit v else .unlock v .expand)
  | leafMate (m v) (mate : R.hasMate v.board = true) :
      Act m (.firstVisit v) m (.resolve v .loss true)
  | leafNoMove (m v) (mate : R.hasMate v.board = false) (noMove : R.noMove v.board = true) :
      Act m (.firstVisit v) m (.noMoves v)
  | leafOpen (m v) (mate : R.hasMate v.board = false) (noMove : R.noMove v.board = false) :
      Act m (.firstVisit v) m (.evaluateLeaf v)
  | noMoves (m v) : Act m (.noMoves v) (m.setChildNum v.node 0) (.publishNoMoves v)
  | publishNoMoves (m v) :
      Act m (.publishNoMoves v) (m.setState v.node .expanded) (.resolve v .win true)
  /-- The value comes from the network or from the cache. -/
  | evaluateLeaf (m v valueWin) :
      Act m (.evaluateLeaf v) (m.countEval v.node) (.setEvaled v valueWin)
  | setEvaled (m v valueWin) :
      Act m (.setEvaled v valueWin) (m.setState v.node .evaluated)
        (.unlock v (.backup (valueWin.map fun x => 1 - x)))
  | unlock (m v next) :
      Act m (.unlock v next) (m.setMutex (R.mutexIndex v.board) none) (.afterUnlock v next)
  | checkExpanded (m v) :
      Act m (.checkExpanded v) m
        (if m.state v.node = .expanded then .readChildNum v else .lockExpand v)
  | lockExpand (m v) (free : m.mutex (R.mutexIndex v.board) = none) :
      Act m (.lockExpand v) (m.setMutex (R.mutexIndex v.board) (some i)) (.recheckExpanded v)
  | recheckExpanded (m v) :
      Act m (.recheckExpanded v) m
        (if m.state v.node = .expanded then .unlock v .children else .expandNode v)
  | expandNode (m v) :
      Act m (.expandNode v) (m.setChildNum v.node (R.generateLegalMoves v.board).length)
        (if (R.generateLegalMoves v.board).isEmpty then .setExpanded v else .newArray v)
  | newArray (m v) : Act m (.newArray v) (m.newArray v.node) (.writeMove v 0)
  | writeMove (m v k) :
      Act m (.writeMove v k) (m.setChildMove (v.node, k) (R.generateLegalMoves v.board)[k]?)
        (if k + 1 < (R.generateLegalMoves v.board).length then .writeMove v (k + 1)
        else .writePrior v 0)
  | writePrior (m v k x) :
      Act m (.writePrior v k) (m.setChildNnrate (v.node, k) x)
        (if k + 1 < (R.generateLegalMoves v.board).length then .writePrior v (k + 1)
        else .clearVisited v)
  | clearVisited (m v) :
      Act m (.clearVisited v) (m.setVisitedNnrate v.node (some 0)) (.setExpanded v)
  | setExpanded (m v) :
      Act m (.setExpanded v) (m.setState v.node .expanded) (.unlock v .children)
  | readChildNum (m v) :
      Act m (.readChildNum v) m
        (if m.childNum v.node = 0 then .resolve v .win false else .loadSum v)
  | loadSum (m v) : Act m (.loadSum v) m (.loadSumWin v (max 0 (m.moveCount v.node)))
  | loadSumWin (m v sum) : Act m (.loadSumWin v sum) m (.loadVisited v sum (m.win v.node))
  | loadVisited (m v sum sumWin) :
      Act m (.loadVisited v sum sumWin) m
        (.scan v 0 (.init ops sum sumWin (m.visitedNnrate v.node)))
  | scan (m v k s) (more : k < m.childNum v.node) :
      Act m (.scan v k s) m
        (if m.childFlags (v.node, k) .loss then .setParent v .win k else .scanWin v k s)
  | scanned (m v k s) (done : ¬ k < m.childNum v.node) :
      Act m (.scan v k s) m (.afterScan v s)
  | scanWin (m v k s) :
      Act m (.scanWin v k s) m
        (if m.childFlags (v.node, k) .win then .scan v (k + 1) s
        else .scanDraw v k { s with allChildrenWin := false })
  | scanDraw (m v k s) :
      Act m (.scanDraw v k s) m (.scanCount v k (s.seeDraw (m.childFlags (v.node, k) .draw)))
  | scanCount (m v k s) :
      Act m (.scanCount v k s) m
        (if m.childMoveCount (v.node, k) = 0 then
          .scan v (k + 1) (s.offer ops k (ops.score v.path.isEmpty s.sum s.sumWin s.visited none
            (m.childNnrate (v.node, k))))
        else .scanChildWin v k s (m.childMoveCount (v.node, k)))
  | scanChildWin (m v k s n) :
      Act m (.scanChildWin v k s n) m
        (.scan v (k + 1) (s.offer ops k (ops.score v.path.isEmpty s.sum s.sumWin s.visited
          (some (n, m.childWin (v.node, k))) (m.childNnrate (v.node, k)))))
  | setParent (m v o k) : Act m (.setParent v o k) (m.setParentFlag v.path o) (.addNode v k)
  | addVisited (m v k x)
      (sum : x = (m.visitedNnrate v.node).bind fun y => (m.childNnrate (v.node, k)).map (y + ·)) :
      Act m (.addVisited v k) (m.setVisitedNnrate v.node x) (.addNode v k)
  | addNode (m v k) : Act m (.addNode v k) (m.addMoveCount v.node 1) (.addEdge v k)
  | addEdge (m v k) : Act m (.addEdge v k) (m.addChildMoveCount (v.node, k) 1) (.getChild v k)
  | getChild (m v k b) (found : m.childNode (v.node, k) = some b) :
      Act m (.getChild v k) m (.descend v k b)
  | getNoChild (m v k) (empty : m.childNode (v.node, k) = none) :
      Act m (.getChild v k) m (.createChild v k)
  /-- `compare_exchange_strong` succeeds; until then the new node is known to this thread alone. -/
  | createChild (m v k) (empty : m.childNode (v.node, k) = none) :
      Act m (.createChild v k)
        (m.publishChild (v.node, k) ((m.childMove (v.node, k)).elim v.board (R.doMove v.board)))
        (.descend v k m.next)
  | lostChild (m v k b) (found : m.childNode (v.node, k) = some b) :
      Act m (.createChild v k) m (.descend v k b)
  | descend (m v k b mv) (move : m.childMove (v.node, k) = some mv) :
      Act m (.descend v k b) m (.enter ⟨R.doMove v.board mv, b, (v.node, k) :: v.path⟩)
  | backup (m path x) : Act m (.backup path (some x)) m (.validate ⟨path, x⟩ path.reverse)
  | backupNotFinite (m path) : Act m (.backup path none) m (.unwindNode path)
  | validate (m p e todo) :
      Act m (.validate p (e :: todo)) m
        (if (m.childNnrate e).isSome then .validate p todo else .unwindNode p.path)
  | validated (m p) : Act m (.validate p []) m (.updateNode p p.path p.value)
  | updateNode (m p e todo x) :
      Act m (.updateNode p (e :: todo) x) (m.addWin e.1 x) (.updateEdge p e todo x)
  | updateEdge (m p e todo x) :
      Act m (.updateEdge p e todo x) (m.addChildWin e x) (.updateNode p todo (1 - x))
  | updated (m p x) :
      Act m (.updateNode p [] x) (m.logPlayout p)
        (if R.useButterfly then .butterfly p.path else .report)
  | unwindNode (m e todo) :
      Act m (.unwindNode (e :: todo)) (m.addMoveCount e.1 (-1)) (.unwindEdge e todo)
  | unwindEdge (m e todo) :
      Act m (.unwindEdge e todo) (m.addChildMoveCount e (-1)) (.unwindNode todo)
  /-- `Stop()` and `break`. -/
  | unwound (m) : Act m (.unwindNode []) m .joined
  | butterfly (m e todo) : Act m (.butterfly (e :: todo)) m (.butterfly todo)
  | butterflyDone (m) : Act m (.butterfly []) m .report
  | reportDone (m) : Act m .report m .idle
  | checkRoot (m) : Act m .report m (.checkNode root)
  | readRoot (m) : Act m .report m (.readNode root)
  | checkNode (m a) :
      Act m (.checkNode a) m (if m.state a = .expanded then .readNode a else .report)
  | readChild (m a k) (bound : k < m.childNum a) : Act m (.readNode a) m (.readNode a)
  | followChild (m a k b) (bound : k < m.childNum a) (child : m.childNode (a, k) = some b) :
      Act m (.readNode a) m (.checkNode b)
  | readDone (m a) : Act m (.readNode a) m .report

end Act

section Searches

variable {ι P M S : Type} (R : Rules P M) (ops : PuctOps S)

/-- The search threads on the tree below `root`. -/
def searchers (root : Addr) : Threads ι (Memory ι P M) (Pc P S) where
  act := Act R ops root

/-- A tree that consists of a new root. -/
def Memory.new (p : P) : Memory ι P M where
  state _ := .fresh
  moveCount _ := 0
  win _ := 0
  visitedNnrate _ := some 0
  childNum _ := 0
  childMove _ := none
  childNode _ := none
  childFlags _ _ := false
  childNnrate _ := some 0
  childMoveCount _ := 0
  childWin _ := 0
  mutex _ := none
  next := 1
  pos _ := p
  evals _ := 0
  arrays _ := 0
  playouts := []

/-- A node published with its children while no other thread runs. -/
def Memory.setChildren (m : Memory ι P M) (a : Addr) (moves : List M) : Memory ι P M :=
  { ((m.newArray a).setChildNum a moves.length).setState a .expanded with
    childMove := fun e => if e.1 = a then moves[e.2]? else m.childMove e }

/-- The children of the root, if there are none yet. -/
def Memory.expandChildren (m : Memory ι P M) (root : Addr) : Memory ι P M :=
  if m.state root = .expanded then m
  else m.setChildren root (R.generateLegalMoves (m.pos root))

/-- `ExpandRoot`: `priors` and `visited` are what `ComputePriors` and `ApplyRootNoise` make of the
priors of the root's children and of its sum. -/
def Memory.expandRoot (m : Memory ι P M) (root : Addr) (priors : Nat → Num) (visited : Num) :
    Memory ι P M :=
  { (m.expandChildren R root).setVisitedNnrate root visited with
    childNnrate := fun e =>
      if e.1 = root then priors e.2 else (m.expandChildren R root).childNnrate e }

/-- The search threads have been created. -/
def startSearch (m : Memory ι P M) (root : Addr) (priors : Nat → Num) (visited : Num) :
    Threads.Config ι (Memory ι P M) (Pc P S) :=
  ⟨m.expandRoot R root priors visited, fun _ => .idle⟩

/-- The trees and roots that searches leave behind, and moves of the root to a child, which
`ReleaseChildrenExceptOne` creates where there is none. What is not below the new root is not looked at
any more. -/
inductive Grown [DecidableEq ι] : Memory ι P M → Addr → Prop
  | new (p) : Grown (.new p) 0
  | search {m root priors visited c} (grown : Grown m root)
      (run : (searchers R ops root).Reach (startSearch R m root priors visited) c)
      (joined : ∀ i, c.own i = .joined) : Grown c.shared root
  | toChild {m root k b} (grown : Grown m root) (child : m.childNode (root, k) = some b) :
      Grown m b
  | toNewChild {m root k mv} (grown : Grown m root) (expanded : m.state root = .expanded)
      (bound : k < m.childNum root) (move : m.childMove (root, k) = some mv)
      (noChild : m.childNode (root, k) = none) :
      Grown (m.publishChild (root, k) (R.doMove (m.pos root) mv)) m.next

end Searches

end Shogi.Mcts
