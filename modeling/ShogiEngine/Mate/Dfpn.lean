import ShogiEngine.Mate.ShallowMate
import ShogiEngine.Shogi.Repetition
import ShogiEngine.Shogi.CheckGen

/-!
# The df-pn search

The proof number search of `mate/dfpn.h` and `mate/dfpn.cc`. It grows a tree whose nodes come from a
pool. Taking a move back restores the board, so that every call works on a board of its own; each
call of `Search` and each pass of its loop uses up fuel.

## Main definitions

- `DfpnNode`, `Pool`, `SearchState`: the tree, the pool, and what a search works on
- `summarizeNode`, `selectBestChild`, `expandNode`, `searchNode`: the source's functions
- `extractPV`, `search`: the source's functions
- `Pass`: what is recorded of a pass of the loop of `Search`
-/

namespace Shogi

namespace MateDfpnSolver

/-! ## Nodes -/

/-- `DfpnNode::INF`. -/
def INF : Nat := 0xFFFFFFF0

/-- `DfpnNode::NOT_EXPANDED`. -/
def notExpanded : Nat := 255

/-- `UINT16_MAX`. -/
def uint16Max : Nat := 65535

/-- `SatAdd`. -/
def satAdd (a b : Nat) : Nat := if INF ≤ a + b then INF else a + b

/-- The members of a `DfpnNode` other than its children. -/
structure NodeData where
  pn : Nat
  dn : Nat
  lastMove : Move
  childNum : Nat
  repeated : Bool
  mateDistance : Nat
  deriving DecidableEq, Repr

/-- `DfpnNode`; there are no children while the pointer to them is null. -/
inductive DfpnNode
  | mk (data : NodeData) (children : List DfpnNode)

namespace DfpnNode

/-- The members. -/
def data : DfpnNode → NodeData
  | mk d _ => d

/-- The block of children. -/
def children : DfpnNode → List DfpnNode
  | mk _ cs => cs

/-- The number that is minimized over the children: `pn` at OR nodes and `dn` at AND nodes. -/
def rel (orNode : Bool) (n : DfpnNode) : Nat := if orNode then n.data.pn else n.data.dn

/-- The number that is summed up. -/
def opp (orNode : Bool) (n : DfpnNode) : Nat := if orNode then n.data.dn else n.data.pn

/-- A node with other members. -/
def withData (n : DfpnNode) (d : NodeData) : DfpnNode := mk d n.children

/-- A node with other children. -/
def withChildren (n : DfpnNode) (cs : List DfpnNode) : DfpnNode := mk n.data cs

/-- A node that has not been expanded. -/
def fresh (m : Move) : DfpnNode := mk ⟨1, 1, m, notExpanded, false, 0⟩ []

/-- `set_mate`. -/
def setMate (n : DfpnNode) (ply : Nat) : DfpnNode :=
  n.withData { n.data with pn := 0, dn := INF - ply, mateDistance := 0 }

/-- `set_nomate`. -/
def setNomate (n : DfpnNode) (ply : Nat) : DfpnNode :=
  n.withData { n.data with pn := INF - ply, dn := 0, mateDistance := 0 }

end DfpnNode

/-- A root has no last move. -/
def Move.null : Move := .normal (.fromIdx 0) (.fromIdx 0)

/-! ## The pool -/

/-- `DfpnNodePool`. -/
structure Pool where
  capacity : Nat
  used : Nat
  exhausted : Bool

/-- `Alloc`. -/
def Pool.alloc (n : Nat) : Pool := ⟨n, 0, false⟩

/-- `NewNodes`, and whether its result is not null. -/
def Pool.newNodes (p : Pool) (count : Nat) : Bool × Pool :=
  if p.capacity < p.used + count then (false, { p with exhausted := true })
  else (true, { p with used := p.used + count })

/-- `OutOfMemory`. -/
def Pool.outOfMemory (p : Pool) : Bool := p.exhausted || decide (p.capacity ≤ p.used)

/-! ## What a search works on -/

/-- A pass of the loop of `Search`: the kind of the node, the node and its thresholds at the beginning,
the number of expansions and settled repetitions before and after, and whether the search is to end. -/
structure Pass where
  orNode : Bool
  node : DfpnNode
  secondPn : Nat
  secondDn : Nat
  before : Nat
  after : Nat
  ended : Bool

/-- The members that a search changes, with the last hash of the path first. `events` counts the leaves
that have been expanded and the children that have been settled by repetition; `passes` records the
passes, the last one first. -/
structure SearchState where
  pool : Pool
  nodesSearched : Nat
  stopReads : Nat
  pathHashes : List (BitVec 64)
  events : Nat
  passes : List Pass

/-- The answers of `ShouldStop`, each time it is asked. A request to stop is never taken back, and a
deadline stays in the past. -/
structure StopAnswers where
  answer : Nat → Bool
  sticky : ∀ i, answer i = true → answer (i + 1) = true

/-- What a search is called with. -/
structure Env where
  nodesLimit : Nat
  stop : StopAnswers
  findMateInOne : ShogiBoard → Option Move
  useFastCheckMovegen : Bool

/-- Why a run ends early: it needs more fuel, or it looks at a child that is not there. -/
inductive Halt
  | outOfFuel
  | nullChild
  deriving DecidableEq, Repr

/-- `kRepetitionLookbackPly`. -/
def kRepetitionLookbackPly : Nat := 16

/-! ## The numbers of a node -/

/-- The numbers `(pn, dn)` that `SummarizeNode` gives a node. -/
def numbersOf (orNode : Bool) (cs : List DfpnNode) : Nat × Nat :=
  let least := cs.foldl (fun a c => min a (c.rel orNode)) INF
  let sum := cs.foldl (fun a c => satAdd a (c.opp orNode)) 0
  if orNode then (least, sum) else (sum, least)

/-- The loop of `SummarizeNode` over the proved children. -/
def distanceOf (orNode : Bool) (cs : List DfpnNode) : Nat :=
  cs.foldl
    (fun a c =>
      if c.data.pn ≠ 0 then a
      else if orNode then min a c.data.mateDistance
      else max a c.data.mateDistance)
    (if orNode then uint16Max else 0)

/-- The members of a node after `SummarizeNode`. -/
def summaryOf (orNode : Bool) (d : NodeData) (cs : List DfpnNode) : NodeData :=
  let numbers := numbersOf orNode cs
  let distance := distanceOf orNode cs
  { d with
    pn := numbers.1
    dn := numbers.2
    repeated := cs.any fun c => c.data.repeated
    mateDistance :=
      if numbers.1 ≠ 0 then d.mateDistance else if distance = uint16Max then 0 else distance + 1 }

/-- `SummarizeNode`. -/
def summarizeNode (orNode : Bool) (n : DfpnNode) : Except Halt DfpnNode :=
  if n.data.childNum = 0 ∨ n.data.childNum = notExpanded then .ok n
  else if n.children.length < n.data.childNum then .error .nullChild
  else .ok (n.withData (summaryOf orNode n.data (n.children.take n.data.childNum)))

/-- The loop of `SelectBestChild`, from child `i` on: the best child, its number, and the second-best
number. -/
def selectScan (orNode : Bool) : List DfpnNode → Nat → Option Nat → Nat → Nat → Option Nat × Nat × Nat
  | [], _, best, bestVal, second => (best, bestVal, second)
  | c :: rest, i, best, bestVal, second =>
    if c.rel orNode < bestVal then selectScan orNode rest (i + 1) (some i) (c.rel orNode) bestVal
    else if c.rel orNode < second then selectScan orNode rest (i + 1) best bestVal (c.rel orNode)
    else selectScan orNode rest (i + 1) best bestVal second

/-- A child to search, with its thresholds. -/
structure Selection where
  index : Nat
  secondPn : Nat
  secondDn : Nat

/-- `SelectBestChild`. -/
def selectBestChild (orNode : Bool) (n : DfpnNode) (secondPn secondDn : Nat) :
    Except Halt (Option Selection) :=
  if n.data.childNum = 0 then .ok none
  else if n.children.length < n.data.childNum then .error .nullChild
  else
    let r := selectScan orNode (n.children.take n.data.childNum) 0 none INF INF
    .ok (r.1.map fun i =>
      ⟨i, if orNode then min secondPn (satAdd r.2.2 1) else secondPn,
        if orNode then secondDn else min secondDn (satAdd r.2.2 1)⟩)

namespace Env

variable (env : Env)

/-- `ShouldStop`. -/
def shouldStop (s : SearchState) : Bool × SearchState :=
  (env.stop.answer s.stopReads, { s with stopReads := s.stopReads + 1 })

/-! ## Expansion -/

/-- The loop of `GenerateChecks`. -/
def checksAmong (b : ShogiBoard) : MoveList → SearchState → MoveList × SearchState
  | [], s => ([], s)
  | m :: rest, s =>
    if (env.shouldStop s).1 then ([], (env.shouldStop s).2)
    else
      let checks := checksAmong b rest (env.shouldStop s).2
      (if (b.doMove m).inCheck (b.doMove m).sideToMove then m :: checks.1 else checks.1, checks.2)

/-- `GenerateChecks`. -/
def generateChecks (b : ShogiBoard) (s : SearchState) : MoveList × SearchState :=
  if env.useFastCheckMovegen then (b.generateCheckingMoves, s)
  else env.checksAmong b b.generateLegalMoves s

/-- The shortcut of `ExpandNode` for a mate in one. -/
def expandMate (n : DfpnNode) (m : Move) (ply : Nat) (s : SearchState) : DfpnNode × SearchState :=
  let n := n.setMate ply
  let n := n.withData { n.data with mateDistance := 1, childNum := 1 }
  let r := s.pool.newNodes 1
  let child := (DfpnNode.fresh m).setMate (ply + 1)
  (if r.1 then n.withChildren [child.withData { child.data with childNum := 0 }] else n,
    { s with pool := r.2 })

/-- `ExpandNode` from the generation of the moves on. -/
def expandMoves (orNode : Bool) (b : ShogiBoard) (n : DfpnNode) (ply : Nat) (s : SearchState) :
    Except Halt (DfpnNode × SearchState) :=
  let moves := if orNode then env.generateChecks b s else (b.generateLegalMoves, s)
  let stopped := env.shouldStop moves.2
  if stopped.1 then .ok (n, stopped.2)
  else if moves.1.isEmpty then
    let n := if orNode then n.setNomate ply else n.setMate ply
    .ok (n.withData { n.data with childNum := 0 }, stopped.2)
  else
    let r := stopped.2.pool.newNodes moves.1.length
    let s := { stopped.2 with pool := r.2 }
    if !r.1 then .ok (n, s)
    else
      let n := (n.withData { n.data with childNum := min moves.1.length 254 }).withChildren
        ((moves.1.take 254).map DfpnNode.fresh)
      (summarizeNode orNode n).map fun n => (n, s)

/-- `ExpandNode`. -/
def expandNode (orNode : Bool) (b : ShogiBoard) (n : DfpnNode) (ply : Nat) (s : SearchState) :
    Except Halt (DfpnNode × SearchState) :=
  let stopped := env.shouldStop s
  if stopped.1 then .ok (n, stopped.2)
  else if orNode then
    let stopped := env.shouldStop stopped.2
    if stopped.1 then .ok (n, stopped.2)
    else
      (env.findMateInOne b).elim (env.expandMoves orNode b n ply stopped.2) fun m =>
        .ok (expandMate n m ply stopped.2)
  else env.expandMoves orNode b n ply stopped.2

/-! ## The search -/

/-- The board after a move at a node repeats a position; the opponent is to move then. -/
def settled (orNode : Bool) (n : DfpnNode) (ply : Nat) (rep : RepetitionResult) : DfpnNode :=
  let n := if rep = (if orNode then .loss else .win) then n.setMate ply else n.setNomate ply
  n.withData { n.data with repeated := true }

/-- The search of one child, from `DoMove` to `UndoMove`, and the summary afterwards. It answers whether
the search is to stop. -/
def visitChild (sub : ShogiBoard → DfpnNode → Nat → Nat → SearchState → Except Halt (DfpnNode × SearchState))
    (orNode : Bool) (b : ShogiBoard) (ply : Nat) (n : DfpnNode) (sel : Selection) (s : SearchState) :
    Except Halt (Bool × DfpnNode × SearchState) :=
  (n.children[sel.index]?).elim (.error .nullChild) fun best =>
    let b := b.doMove best.data.lastMove
    let rep := (b.checkRepetition kRepetitionLookbackPly).1
    let settle (child : DfpnNode) :=
      (summarizeNode orNode (n.withChildren (n.children.set sel.index child))).map fun n =>
        (false, n, { s with events := s.events + 1 })
    if rep ≠ .none then settle (settled orNode best (ply + 1) rep)
    else if s.pathHashes.contains b.hash then
      let best := best.setNomate (ply + 1)
      settle (best.withData { best.data with repeated := true })
    else
      (sub b best sel.secondPn sel.secondDn { s with pathHashes := b.hash :: s.pathHashes }).bind fun r =>
        let s := { r.2 with pathHashes := r.2.pathHashes.tail }
        let n := n.withChildren (n.children.set sel.index r.1)
        let stopped := env.shouldStop s
        if stopped.1 then .ok (true, n, stopped.2)
        else (summarizeNode orNode n).map fun n => (false, n, stopped.2)

/-- The pass that led from the state `s` to the state `s'` is recorded. -/
def recordPass (orNode : Bool) (n : DfpnNode) (secondPn secondDn : Nat) (s : SearchState) (stopped : Bool)
    (s' : SearchState) : SearchState :=
  { s' with
    passes := ⟨orNode, n, secondPn, secondDn, s.events, s'.events, stopped || s'.pool.outOfMemory⟩ ::
      s'.passes }

/-- The loop of `Search`; `sub` is the search of a child. -/
def searchLoop (sub : ShogiBoard → DfpnNode → Nat → Nat → SearchState → Except Halt (DfpnNode × SearchState))
    (orNode : Bool) (b : ShogiBoard) (ply secondPn secondDn : Nat) :
    Nat → DfpnNode → SearchState → Except Halt (DfpnNode × SearchState)
  | 0, _, _ => .error .outOfFuel
  | fuel + 1, n, s =>
    if n.data.pn < secondPn ∧ n.data.dn < secondDn ∧ n.data.pn ≠ 0 ∧ n.data.dn ≠ 0 ∧
        s.pool.outOfMemory = false then
      let stopped := env.shouldStop s
      if stopped.1 || decide (env.nodesLimit ≤ stopped.2.nodesSearched) then .ok (n, stopped.2)
      else
        (selectBestChild orNode n secondPn secondDn).bind fun sel =>
          sel.elim (.ok (n, stopped.2)) fun sel =>
            (env.visitChild sub orNode b ply n sel stopped.2).bind fun r =>
              let s' := recordPass orNode n secondPn secondDn stopped.2 r.1 r.2.2
              if r.1 then .ok (r.2.1, s')
              else searchLoop sub orNode b ply secondPn secondDn fuel r.2.1 s'
    else .ok (n, s)

/-- A leaf has been expanded. -/
def recordExpansion (n : DfpnNode) (s : SearchState) : SearchState :=
  { s with
    nodesSearched := s.nodesSearched + 1
    events := if n.data.childNum ≠ notExpanded then s.events + 1 else s.events }

/-- `Search`. -/
def searchNode : Nat → Bool → ShogiBoard → DfpnNode → Nat → Nat → Nat → SearchState →
    Except Halt (DfpnNode × SearchState)
  | 0, _, _, _, _, _, _, _ => .error .outOfFuel
  | fuel + 1, orNode, b, n, secondPn, secondDn, ply, s =>
    let stopped := env.shouldStop s
    if stopped.1 then .ok (n, stopped.2)
    else if n.data.childNum = notExpanded then
      (env.expandNode orNode b n ply stopped.2).bind fun r =>
        let stopped := env.shouldStop r.2
        if stopped.1 then .ok (r.1, stopped.2)
        else (summarizeNode orNode r.1).map fun n => (n, recordExpansion r.1 stopped.2)
    else
      env.searchLoop (fun b c pn dn s => searchNode fuel (!orNode) b c pn dn (ply + 1) s) orNode b ply
        secondPn secondDn (fuel + 1) n stopped.2

end Env

/-! ## The principal variation -/

/-- The loop of `ExtractPV` over the children: the best proved one so far and its distance. -/
def bestProven (orNode : Bool) : List DfpnNode → Option DfpnNode → Nat → Option DfpnNode
  | [], best, _ => best
  | c :: rest, best, distance =>
    if c.data.pn ≠ 0 then bestProven orNode rest best distance
    else if (if orNode then decide (c.data.mateDistance < distance)
        else best.isNone || decide (distance < c.data.mateDistance)) then
      bestProven orNode rest (some c) c.data.mateDistance
    else bestProven orNode rest best distance

/-- The loop of `ExtractPV`, in at most `fuel` passes. -/
def extractLine : Nat → Bool → DfpnNode → List Move
  | 0, _, _ => []
  | fuel + 1, orNode, n =>
    if n.data.childNum = 0 ∨ n.children = [] then []
    else
      (bestProven orNode (n.children.take n.data.childNum) none
          (if orNode then uint16Max else 0)).elim [] fun c =>
        c.data.lastMove :: extractLine fuel (!orNode) c

mutual

/-- The number of nodes below a node. -/
def DfpnNode.size : DfpnNode → Nat
  | .mk _ cs => DfpnNode.sizes cs

/-- The number of nodes of some trees. -/
def DfpnNode.sizes : List DfpnNode → Nat
  | [] => 0
  | c :: cs => 1 + c.size + DfpnNode.sizes cs

end

/-- `ExtractPV`: the line has at most as many moves as there are nodes. -/
def extractPV (root : DfpnNode) : List Move := extractLine (root.size + 1) true root

/-! ## The entry point -/

/-- What `search` returns: a mating move, `NoMateMove()` or the null move. -/
inductive Answer
  | mate (m : Move)
  | noMate
  | null
  deriving DecidableEq, Repr

/-- What is left after a search. -/
structure Outcome where
  answer : Answer
  pv : List Move
  matePly : Nat
  root : DfpnNode
  state : SearchState

/-- `pool_size`. -/
def poolSize (nodesLimit : Nat) : Nat :=
  max 1024 (min (if 2000000 / 8 ≤ nodesLimit then 2000000 else nodesLimit * 8) 2000000)

namespace Env

variable (env : Env)

/-- The members at the start of a search. -/
def start (board : ShogiBoard) : SearchState :=
  ⟨.alloc (poolSize env.nodesLimit), 0, 1, [board.hash], 0, []⟩

/-- The loop of `search`. -/
def rootLoop (board : ShogiBoard) : Nat → DfpnNode → SearchState → Except Halt (DfpnNode × SearchState)
  | 0, _, _ => .error .outOfFuel
  | fuel + 1, root, s =>
    if root.data.pn ≠ 0 ∧ root.data.dn ≠ 0 ∧ s.pool.outOfMemory = false then
      let stopped := env.shouldStop s
      if stopped.1 || decide (env.nodesLimit ≤ stopped.2.nodesSearched) then .ok (root, stopped.2)
      else
        (env.searchNode fuel true board root INF INF 0 stopped.2).bind fun r =>
          rootLoop board fuel r.1 r.2
    else .ok (root, s)

/-- The interpretation of the result. -/
def interpret (root : DfpnNode) (s : SearchState) : Outcome :=
  let stopped := env.shouldStop s
  if stopped.1 then ⟨.null, [], 0, root, stopped.2⟩
  else if root.data.pn = 0 then
    let pv := extractPV root
    let stopped := env.shouldStop stopped.2
    if stopped.1 then ⟨.null, [], 0, root, stopped.2⟩
    else ⟨(pv.head?.map Answer.mate).getD .null, pv, pv.length, root, stopped.2⟩
  else if root.data.dn = 0 then ⟨.noMate, [], 0, root, stopped.2⟩
  else ⟨.null, [], 0, root, stopped.2⟩

/-- `search`. -/
def search (fuel : Nat) (board : ShogiBoard) : Except Halt Outcome :=
  let root := DfpnNode.fresh Move.null
  if env.stop.answer 0 then .ok ⟨.null, [], 0, root, env.start board⟩
  else (env.rootLoop board fuel root (env.start board)).map fun r => env.interpret r.1 r.2

end Env

end MateDfpnSolver

end Shogi
