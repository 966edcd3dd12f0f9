import ShogiEngine.Mate.BnsFinals
import ShogiEngine.Mate.BnsTable
import ShogiEngine.Mate.ShallowMate

/-!
# The branch number search

The search of `mate/bns.cc`: a threshold iteration over a transposition table, with verdicts that
depend on the route kept in a list of overrides. The search plays on one board and takes every move
back. Each call of `SearchImpl` and each pass of its loop uses up fuel.

## Main definitions

- `Settings`, `Env`, `SearchState`: what a search is called with and what it works on
- `lookupChild`, `recordVerdict`, `dropOverridesAtReturn`: the route-dependent verdicts
- `searchImpl`: the source's `SearchImpl`, for both kinds of nodes
- `extractPV`, `search`: the source's functions
- `Reached`: the states of a solver between searches
-/

namespace Shogi

namespace MateBnsSolver

open Bns

/-- `kRepetitionLookbackPly`. -/
def kRepetitionLookbackPly : Nat := 16

/-- `kMoveCacheMaxMoves`. -/
def kMoveCacheMaxMoves : Nat := 24

/-- `kExtractionBudget`. -/
def kExtractionBudget : Nat := 4000000

/-- `TaintKind`. -/
inductive TaintKind
  | path
  | resource
  deriving DecidableEq, Repr

/-- `PathOverride`. -/
structure PathOverride where
  hash : BitVec 64
  view : ChildView
  anchorPly : Int
  kind : TaintKind

/-- `SourcedView`: a child's numbers and where they come from. -/
structure SourcedView where
  view : ChildView
  tainted : Bool
  anchorPly : Int
  kind : TaintKind

/-- Numbers that do not depend on the route. -/
def SourcedView.untainted (v : ChildView) : SourcedView := ⟨v, false, 0, .path⟩

/-- `MoveCacheSlot`. -/
structure MoveCacheSlot where
  hash : BitVec 64
  gen : BitVec 16
  ply : BitVec 16
  moves : MoveList
  childHash : List (BitVec 64)

/-- The move cache; the mask is zero while there is none. -/
structure MoveCache where
  slots : Nat → MoveCacheSlot
  mask : BitVec 64
  gen : BitVec 16

/-- A slot of memory that `calloc` returns. -/
def MoveCacheSlot.cleared : MoveCacheSlot := ⟨0#64, 0#16, 0#16, [], []⟩

/-- One column of a `Frame`: a move and what is known of the position after it. -/
structure Child where
  move : Move
  hash : BitVec 64
  bkey : BitVec 64
  ahand : Hand

/-- The members that the setters set; `pnDn` is `arith_ == Arith::kPnDn`. -/
structure Settings where
  ttMb : Nat
  pnDn : Bool
  maxPly : Nat
  useMate3Probe : Bool
  rootMate3Checks : Int
  moveOrdering : Bool
  moveCacheMb : Nat
  useNewNodeBlock : Bool
  useDominance : Bool
  paperGhiMode : Bool
  ghiEscapeEffort : Nat
  disablePathScan : Bool
  disableRuleRepetition : Bool

/-- Their initial values. -/
def Settings.default : Settings :=
  ⟨4, true, 129, false, 12, false, 2, false, false, false, 10000, false, false⟩

/-- What a search is called with: the settings, the node limit, the answers of the stop flag and of
the comparison of the clock with the deadline (if there is one) each time they are asked, and the
mate-in-one routines. -/
structure Env where
  settings : Settings
  nodesLimit : Nat
  stop : Nat → Bool
  deadline : Option (Nat → Bool)
  findMateInOneNonCheck : ShogiBoard → Option Move
  findMateInOneApprox : ShogiBoard → Option Move

/-- The board and the members that a search changes. The overrides and the hashes of the path stand
with the last one first. `summaries` records the lists of views that have been summarized, with the
kind of their node. -/
structure SearchState where
  board : ShogiBoard
  tt : BnsTT
  finals : BnsFinalsTable
  moveCache : MoveCache
  nodeEntries : Nat
  rootProbeMoves : Option MoveList
  inExtractionResearch : Bool
  deadlinePassed : Bool
  stopCheckCounter : BitVec 64
  limitHit : Bool
  resourceTaintSeen : Bool
  extractionSteps : Nat
  pathHashes : List (BitVec 64)
  overrides : List PathOverride
  overrideVersion : BitVec 64
  pv : List Move
  matePly : Nat
  stopReads : Nat
  clockReads : Nat
  summaries : List (Bool × List ChildView)

/-- Why a run ends early: it needs more fuel, or it indexes a child that is not there. -/
inductive Halt
  | outOfFuel
  | badIndex
  deriving DecidableEq, Repr

/-- A piece of the search. -/
abbrev SearchM := ExceptT Halt (StateM SearchState)

/-- `DoMove`; `givesCheck` is what the caller knows about the check. -/
def doMove (m : Move) (givesCheck : Option Bool) : SearchM UndoInfo :=
  modifyGet fun s =>
    let r := s.board.doMoveInternal m true givesCheck
    (r.2, { s with board := r.1 })

/-- `UndoMove`. -/
def undoMove (m : Move) (undo : UndoInfo) : SearchM Unit :=
  modify fun s => { s with board := s.board.undoMove m undo }

/-- A question to the board. -/
def ask {α : Type} (f : ShogiBoard → α) : SearchM α := return f (← get).board

/-- `path_hashes_.push_back`. -/
def pushHash (hash : BitVec 64) : SearchM Unit :=
  modify fun s => { s with pathHashes := hash :: s.pathHashes }

/-- `path_hashes_.pop_back`. -/
def popHash : SearchM Unit := modify fun s => { s with pathHashes := s.pathHashes.tail }

/-- Numbers of an entry of the table. -/
def setEntry (x : Nat) (v : ChildView) : SearchM Unit :=
  modify fun s => { s with tt := s.tt.setView x v }

/-- `tt_.Store`. -/
def storeEntry (hash : BitVec 64) (ply : Nat) (cached : Option Nat) : SearchM Nat :=
  modifyGet fun s =>
    let r := s.tt.store hash ply cached
    (r.2, { s with tt := r.1 })

/-- `OrderCheckingMoves`: captures, moves on the board, drops. -/
def orderCheckingMoves (b : ShogiBoard) (moves : MoveList) : MoveList :=
  let tier (m : Move) : Nat := if m.isDrop then 2 else if !(b.board m.dst).isNone then 0 else 1
  (List.range 3).flatMap fun i => moves.filter fun m => tier m = i

/-! ## Pieces of a node -/

/-- The attacker's hand after a move of the side to move. -/
def attackerHandAfter (orNode : Bool) (b : ShogiBoard) (ahand : Hand) (m : Move) : Hand :=
  if orNode then
    let h := b.hand b.sideToMove
    match m with
    | .drop pt _ => h.sub pt
    | .normal _ t | .promotion _ t =>
      if !(b.board t).isNone then h.add (b.board t).type.unpromote else h
  else ahand

/-- The index of the slot of the move cache. -/
def cacheIndex (s : SearchState) (hash : BitVec 64) (kply : Nat) : Nat :=
  (BnsTT.mix hash kply &&& s.moveCache.mask).toNat

/-- What the passes of the loop carry along: the views of the children, the child to look at again
(`refresh_only`), `seen_override_version` and `own_entry`. -/
structure Pass where
  views : List SourcedView
  refreshOnly : Option Nat
  seenOverrideVersion : BitVec 64
  ownEntry : Nat

/-- A node of the search that has moves. -/
structure Node where
  orNode : Bool
  ply : Nat
  hash : BitVec 64
  bkey : BitVec 64
  ahand : Hand
  ownTag : BitVec 64
  abnTh : Nat
  obnTh : Nat
  children : List Child

/-- The variables of the taint bookkeeping: whether the verdict is tainted, its anchor, and whether
it rests on a depth cap. -/
structure Taint where
  tainted : Bool
  anchor : Int
  resource : Bool

/-- `absorb`. -/
def Taint.absorb (ply : Nat) (t : Taint) (v : SourcedView) : Taint :=
  if !v.tainted then t
  else if v.kind = .resource then ⟨true, max t.anchor v.anchorPly, true⟩
  else if v.anchorPly < ply then ⟨true, max t.anchor v.anchorPly, t.resource⟩
  else t

/-- The taint of a verdict: of the child that decides it, or of all children. -/
def verdictTaint (ply : Nat) (views : List SourcedView) (best : Option Nat) : Taint :=
  match best with
  | some i => ((views[i]?).map (Taint.absorb ply ⟨false, 0, false⟩)).getD ⟨false, 0, false⟩
  | none => views.foldl (Taint.absorb ply) ⟨false, 0, false⟩

/-- The index of the last hash of the path, before the window of `CheckRepetition`, that is `hash`. -/
def scanPath (hash : BitVec 64) : List (BitVec 64) → Option Nat
  | [] => none
  | h :: rest => if h = hash then some rest.length else scanPath hash rest

/-! ## What the search knows of a position -/

namespace SearchState

variable (st : SearchState)

/-- The override for a position that was pushed last. -/
def findOverride (hash : BitVec 64) : Option PathOverride :=
  st.overrides.find? fun o => o.hash = hash

/-- What the transposition table has for a position. -/
def ttView (hash : BitVec 64) (ply : Nat) : Option ChildView :=
  (st.tt.probe hash ply).map fun x => (st.tt.table x).view

/-- `LookupChild`. -/
def lookupChild (useDominance : Bool) (hash : BitVec 64) (ply : Nat) (boardKey : BitVec 64)
    (attackerHand : Hand) : SourcedView :=
  match st.findOverride hash with
  | some o => ⟨o.view, true, o.anchorPly, o.kind⟩
  | none =>
    let view := (st.ttView hash ply).getD .unknown
    if view.abn = 0 || view.obn = 0 then .untainted view
    else if useDominance && !st.inExtractionResearch then
      let dom := st.finals.probe boardKey attackerHand
      if dom > 0 then .untainted mateView
      else if dom < 0 then .untainted noMateView
      else .untainted view
    else .untainted view

end SearchState

namespace Env

variable (env : Env)

/-- `kPaperGhi ? 0 : ply`. -/
def keyPly (ply : Nat) : Nat := if env.settings.paperGhiMode then 0 else ply

/-- `stop_.load`. -/
def loadStop : SearchM Bool :=
  modifyGet fun s => (env.stop s.stopReads, { s with stopReads := s.stopReads + 1 })

/-- `Clock::now() >= deadline_`. -/
def clockPassed (clock : Nat → Bool) : SearchM Bool :=
  modifyGet fun s => (clock s.clockReads, { s with clockReads := s.clockReads + 1 })

/-- `ShouldStop`. -/
def shouldStop : SearchM Bool := do
  if ← env.loadStop then return true
  else if (← get).deadlinePassed then return true
  else
    match env.deadline with
    | none => return false
    | some clock =>
      modify fun s => { s with stopCheckCounter := s.stopCheckCounter + 1#64 }
      -- the clock is read at one call in 1024
      if (← get).stopCheckCounter &&& 1023#64 = 0#64 then
        if ← clockPassed clock then
          modify fun s => { s with deadlinePassed := true }
          return true
        else return false
      else return false

/-- `RecordVerdict`. -/
def recordVerdict (hash : BitVec 64) (ply : Nat) (v : ChildView) (tainted : Bool) (anchorPly : Int)
    (kind : TaintKind) (boardKey : BitVec 64) (attackerHand : Hand) (cachedEntry : Option Nat) :
    SearchM Unit := do
  if tainted then
    modify fun s => { s with
      resourceTaintSeen := kind = .resource || s.resourceTaintSeen
      overrides := ⟨hash, v, anchorPly, kind⟩ :: s.overrides
      overrideVersion := s.overrideVersion + 1#64 }
  else
    let e ← storeEntry hash ply cachedEntry
    setEntry e v
    if env.settings.useDominance && boardKey ≠ 0#64 && (v.abn = 0 || v.obn = 0) then
      modify fun s => { s with finals := s.finals.store boardKey attackerHand (v.abn = 0) }

/-- `DropOverridesAtReturn`. -/
def dropOverridesAtReturn (ply : Nat) : SearchM Unit :=
  modify fun s =>
    let kept := s.overrides.filter fun o => !decide ((ply : Int) ≤ o.anchorPly)
    { s with
      overrides := kept
      overrideVersion :=
        if kept.length ≠ s.overrides.length then s.overrideVersion + 1#64 else s.overrideVersion }

/-- `FindMateInOne`. -/
def findMateInOne (b : ShogiBoard) : Option Move :=
  ((⟨none, env.findMateInOneNonCheck⟩ : ShallowMate.Env).findMateInOne ⟨b, ⟨false, 0#32, 0⟩⟩).1

/-- `shallow_mate::MateIn3Ply`. -/
def mateIn3Ply (b : ShogiBoard) : Bool :=
  ((⟨none, env.findMateInOneNonCheck⟩ : ShallowMate.Env).mateIn3Ply (b.inCheck b.sideToMove)
    ⟨b, ⟨false, 0#32, 0⟩⟩).1

/-! ## The children of a node -/

/-- The column of a `Frame` for a move, with the hash of the position after it. -/
def child (orNode : Bool) (b : ShogiBoard) (ahand : Hand) (m : Move) (hash : BitVec 64) : Child where
  move := m
  hash := hash
  bkey := if env.settings.useDominance then b.boardKeyAfter m else 0#64
  ahand := if env.settings.useDominance then attackerHandAfter orNode b ahand m else .empty

/-- The moves and hashes that the move cache has for the node. -/
def cachedMoves (hash : BitVec 64) (kply : Nat) : SearchM (Option (List (Move × BitVec 64))) := do
  let s ← get
  let slot := s.moveCache.slots (cacheIndex s hash kply)
  if s.moveCache.mask ≠ 0#64 && slot.gen = s.moveCache.gen && slot.hash = hash &&
      slot.ply = BitVec.ofNat 16 kply then
    return some (slot.moves.zip slot.childHash)
  else return none

/-- The moves and hashes of the node go to the move cache if they fit. -/
def cacheMoves (hash : BitVec 64) (kply : Nat) (moves : List (Move × BitVec 64)) : SearchM Unit :=
  modify fun s =>
    if s.moveCache.mask ≠ 0#64 && moves.length ≤ kMoveCacheMaxMoves then
      { s with moveCache := { s.moveCache with
          slots := Function.update s.moveCache.slots (cacheIndex s hash kply)
            ⟨hash, s.moveCache.gen, BitVec.ofNat 16 kply, moves.map Prod.fst,
              moves.map Prod.snd⟩ } }
    else s

/-- The probes at a fresh OR node: whether there is a mate in one, or, if that probe is in use, in
three. -/
def freshMate (b : ShogiBoard) : Bool :=
  (if b.inCheck b.sideToMove then env.findMateInOne b else env.findMateInOneApprox b).isSome ||
    env.settings.useMate3Probe && env.mateIn3Ply b

/-- The checking moves of an OR node; at the root those of the bounded probe are used once. -/
def checkingMoves (ply : Nat) : SearchM MoveList := do
  let s ← get
  match if ply = 0 then s.rootProbeMoves else none with
  | some moves =>
    modify fun s => { s with rootProbeMoves := none }
    return moves
  | none => return s.board.generateCheckingMoves

/-- The moves of an OR node in the order in which they are tried. -/
def orMoves (ply : Nat) : SearchM MoveList := do
  let moves ← checkingMoves ply
  if env.settings.moveOrdering && 2 < moves.length then ask fun b => orderCheckingMoves b moves
  else return moves

/-- The moves of a node that the move cache does not have; `none` where the node is decided. -/
def freshMoves (orNode firstVisit : Bool) (hash : BitVec 64) (ply : Nat) (bkey : BitVec 64)
    (ahand : Hand) (ownEntry : Nat) : SearchM (Option MoveList) := do
  let record (v : ChildView) : SearchM Unit :=
    env.recordVerdict hash (env.keyPly ply) v false 0 .path bkey ahand (some ownEntry)
  if orNode then
    if firstVisit && (← ask env.freshMate) then
      record mateView
      return none
    else
      let moves ← env.orMoves ply
      if moves.isEmpty then
        record noMateView
        return none
      else return some moves
  else
    let moves ← ask ShogiBoard.generateEvasionMoves
    if moves.isEmpty then
      record mateView
      return none
    else return some moves

/-- The frame of a node: its moves and what is known of the positions after them; `none` where the
node is decided. -/
def frame (orNode firstVisit : Bool) (hash : BitVec 64) (ply : Nat) (bkey : BitVec 64)
    (ahand : Hand) (ownEntry : Nat) : SearchM (Option (List Child)) := do
  let columns (moves : List (Move × BitVec 64)) : SearchM (List Child) :=
    ask fun b => moves.map fun m => env.child orNode b ahand m.1 m.2
  match ← cachedMoves hash (env.keyPly ply) with
  | some moves => return some (← columns moves)
  | none =>
    match ← env.freshMoves orNode firstVisit hash ply bkey ahand ownEntry with
    | none => return none
    | some moves =>
      let moves ← ask fun b => moves.map fun m => (m, b.hashAfter m)
      cacheMoves hash (env.keyPly ply) moves
      return some (← columns moves)

/-! ## The new-node block -/

/-- The loop of `RunNewNodeBlock` over the evasions; its result is `child_all_mated`. -/
def allMatedInOne (gply : Nat) : MoveList → SearchM Bool
  | [] => pure true
  | m2 :: rest => do
    let u2 ← doMove m2 none
    let m3 ← ask fun b => if b.inCheck b.sideToMove then none else env.findMateInOneApprox b
    if m3.isSome then
      env.recordVerdict (← ask ShogiBoard.hash) gply mateView false 0 .path 0#64 .empty none
      undoMove m2 u2
      allMatedInOne gply rest
    else
      undoMove m2 u2
      return false

/-- Is every evasion of a check followed by a mate in one? -/
def childAllMated (gply : Nat) (ev : MoveList) : SearchM Bool :=
  if ev.isEmpty then pure true else env.allMatedInOne gply ev

/-- A child that nothing is known of starts with the number of its evasions. -/
def initChild (ce : Nat) (evasions : Nat) : SearchM Unit := do
  let s ← get
  if s.tt.effortOf ce = 0 && (s.tt.table ce).view = ChildView.unknown then
    setEntry ce ⟨evasions, 1⟩

/-- The loop of `RunNewNodeBlock` over the checks; it answers whether the node is decided. -/
def newNodeLoop (ply : Nat) (hash bkey : BitVec 64) (ahand : Hand) (ownEntry : Nat) :
    List Child → SearchM Bool
  | [] => pure false
  | c :: rest => do
    let u1 ← doMove c.move (some true)
    let ev ← ask ShogiBoard.generateEvasionMoves
    let allMated ← env.childAllMated (env.keyPly (ply + 2)) ev
    undoMove c.move u1
    if allMated then
      env.recordVerdict c.hash (env.keyPly (ply + 1)) mateView false 0 .path c.bkey c.ahand none
      env.recordVerdict hash (env.keyPly ply) mateView false 0 .path bkey ahand (some ownEntry)
      return true
    else
      let ce ← storeEntry c.hash (env.keyPly (ply + 1)) none
      initChild ce ev.length
      newNodeLoop ply hash bkey ahand ownEntry rest

/-! ## The loop of `SearchImpl` -/

/-- The numbers of a child as a pass reads them. -/
def childView (st : SearchState) (ply : Nat) (c : Child) : SourcedView :=
  if !env.settings.useDominance && st.overrides.isEmpty then
    .untainted ((st.ttView c.hash (env.keyPly (ply + 1))).getD .unknown)
  else
    let sv := st.lookupChild env.settings.useDominance c.hash (env.keyPly (ply + 1)) c.bkey c.ahand
    -- the frame keeps anchors in 16 bits
    { sv with anchorPly := sv.anchorPly.bmod (2 ^ 16) }

/-- The views of a pass: all of them are read again, or only that of the child just returned from. -/
def refresh (st : SearchState) (nd : Node) (p : Pass) : List SourcedView :=
  if p.refreshOnly.isNone || env.settings.paperGhiMode ||
      p.seenOverrideVersion ≠ st.overrideVersion then
    nd.children.map (env.childView st nd.ply)
  else
    match p.refreshOnly.bind fun i => nd.children[i]?.map fun c => (i, c) with
    | some (i, c) => p.views.set i (env.childView st nd.ply c)
    | none => p.views

/-- A terminal summary is recorded. -/
def recordTerminal (nd : Node) (views : List SourcedView) (s : Summary) (ownEntry : Nat) :
    SearchM Unit := do
  if (← get).overrides.isEmpty then
    env.recordVerdict nd.hash (env.keyPly nd.ply) s.view false 0 .path nd.bkey nd.ahand
      (some ownEntry)
  else
    let t := verdictTaint nd.ply views s.best
    env.recordVerdict nd.hash (env.keyPly nd.ply) s.view t.tainted t.anchor
      (if t.resource then .resource else .path) nd.bkey nd.ahand (some ownEntry)

/-- The own entry, which may have been evicted. -/
def ownEntryOf (nd : Node) (ownEntry : Nat) : SearchM Nat := do
  let st ← get
  if (st.tt.table ownEntry).tag ≠ nd.ownTag then storeEntry nd.hash (env.keyPly nd.ply) none
  else return ownEntry

/-- An unresolved summary goes to the own entry. -/
def storeUnresolved (nd : Node) (s : Summary) (ownEntry : Nat) : SearchM Nat := do
  let e ← env.ownEntryOf nd ownEntry
  setEntry e s.view
  if env.settings.paperGhiMode then
    modify fun st => { st with tt := st.tt.incrementEffort e }
    return e
  else return e

/-- The escape and the marking of the paper's mode; its result are the child's thresholds. -/
def paperMarking (nd : Node) (th : Nat × Nat) : SearchM (Nat × Nat) := do
  if env.settings.paperGhiMode then
    let s ← get
    match s.tt.probe nd.hash 0 with
    | none => return th
    | some e =>
      let th := if env.settings.ghiEscapeEffort < s.tt.effortOf e then (nd.abnTh, nd.obnTh) else th
      setEntry e ⟨th.1, 1⟩
      return th
  else return th

/-- The verdict of a repetition after a move at a node. The opponent is to move then. -/
def repetitionView (orNode : Bool) (rep : RepetitionResult) : ChildView :=
  if rep = (if orNode then .loss else .win) then mateView else noMateView

/-- The verdicts on a child, just moved to, that the route decides; the answer is `handled`. -/
def routeTerminal (nd : Node) (chash : BitVec 64) : SearchM Bool := do
  let record (v : ChildView) (tainted : Bool) (anchor : Int) (kind : TaintKind) : SearchM Unit :=
    env.recordVerdict chash (env.keyPly (nd.ply + 1)) v tainted anchor kind 0#64 .empty none
  if env.settings.maxPly ≤ nd.ply + 1 then
    modify fun s => { s with resourceTaintSeen := true }
    record noMateView true nd.ply .resource
    return true
  else
    let rep ← ask fun b => b.checkRepetition kRepetitionLookbackPly
    if !env.settings.disableRuleRepetition && rep.1 ≠ .none then
      let v := repetitionView nd.orNode rep.1
      let anchor : Int := (nd.ply : Int) + 1 - (rep.2.getD 0 : Nat)
      -- before the root the match is there on every route
      if anchor < 0 then
        record v false 0 .path
        return true
      else
        record v true anchor .path
        return true
    else if env.settings.disablePathScan then return false
    else
      let window := if env.settings.disableRuleRepetition then 0 else kRepetitionLookbackPly
      match scanPath chash ((← get).pathHashes.drop window) with
      | some idx =>
        record noMateView true idx .path
        return true
      | none => return false

/-- `limit_hit_ || stats_.node_entries >= nodes_limit_ || ShouldStop()`. -/
def limitReached : SearchM Bool := do
  let st ← get
  if st.limitHit || env.nodesLimit ≤ st.nodeEntries then return true else env.shouldStop

/-- `limit_hit_ || stop_.load()`. -/
def stoppedBelow : SearchM Bool := do
  if (← get).limitHit then return true else env.loadStop

/-- What a pass has to look at to descend: the index of the selected child, its view and its column. -/
def selectedChild (nd : Node) (views : List SourcedView) (s : Summary) :
    Option (Nat × SourcedView × Child) :=
  s.best.bind fun i => views[i]?.bind fun v => nd.children[i]?.map fun c => (i, v, c)

/-- The search of a child, just moved to, and the way back; it answers whether the search is over. -/
def visitChild (nd : Node) (sub : Nat → Nat → SearchM Unit) (c : Child) (th : Nat × Nat)
    (undo : UndoInfo) : SearchM Bool := do
  pushHash c.hash
  sub th.1 th.2
  popHash
  undoMove c.move undo
  dropOverridesAtReturn (nd.ply + 1)
  env.stoppedBelow

/-- The loop of `SearchImpl`; `sub` is the search of a child with its thresholds. -/
def searchLoop (nd : Node) (sub : Nat → Nat → SearchM Unit) : Nat → Pass → SearchM Unit
  | 0, _ => throw .outOfFuel
  | fuel + 1, p => do
    let st ← get
    let views := env.refresh st nd p
    let seen := st.overrideVersion
    modify fun st => { st with
      summaries := (nd.orNode, views.map SourcedView.view) :: st.summaries }
    let s := summarize nd.orNode env.settings.pnDn (views.map SourcedView.view)
    if s.terminal then env.recordTerminal nd views s p.ownEntry
    else
      let own ← env.storeUnresolved nd s p.ownEntry
      if nd.abnTh ≤ s.abn || nd.obnTh ≤ s.obn then return ()
      else
        if ← env.limitReached then modify fun st => { st with limitHit := true }
        else
          match selectedChild nd views s with
          | none => throw .badIndex
          | some (i, v, c) =>
            let th ← env.paperMarking nd (childThresholds nd.orNode s v.view nd.abnTh nd.obnTh)
            let undo ← doMove c.move (if nd.orNode then some true else none)
            if ← env.routeTerminal nd c.hash then
              undoMove c.move undo
              searchLoop nd sub fuel ⟨views, some i, seen, own⟩
            else
              if ← env.visitChild nd sub c th undo then return ()
              else searchLoop nd sub fuel ⟨views, some i, seen, own⟩

/-- `RunNewNodeBlock`, where it is called. -/
def newNodeBlock (orNode firstVisit : Bool) (ply : Nat) (hash bkey : BitVec 64) (ahand : Hand)
    (ownEntry : Nat) (children : List Child) : SearchM Bool :=
  if orNode && firstVisit && env.settings.useNewNodeBlock then
    env.newNodeLoop ply hash bkey ahand ownEntry children
  else pure false

/-- `tt_.ProbeOrStore` for the node itself. -/
def probeOrStoreEntry (hash : BitVec 64) (kply : Nat) : SearchM (Nat × Bool) :=
  modifyGet fun s =>
    let r := s.tt.probeOrStore hash kply
    (r.2, { s with tt := r.1 })

/-- `SearchImpl`. -/
def searchImpl : Nat → Bool → Nat → Nat → Nat → SearchM Unit
  | 0, _, _, _, _ => throw .outOfFuel
  | fuel + 1, orNode, abnTh, obnTh, ply => do
    modify fun s => { s with nodeEntries := s.nodeEntries + 1 }
    let hash ← ask ShogiBoard.hash
    let own ← probeOrStoreEntry hash (env.keyPly ply)
    let ownTag := ((← get).tt.table own.1).tag
    let bkey ← ask fun b => if env.settings.useDominance then b.boardKey else 0#64
    let ahand ← ask fun b =>
      if env.settings.useDominance then
        b.hand (if orNode then b.sideToMove else ~~~b.sideToMove)
      else .empty
    match ← env.frame orNode own.2 hash ply bkey ahand own.1 with
    | none => return ()
    | some children =>
      if ← env.newNodeBlock orNode own.2 ply hash bkey ahand own.1 children then return ()
      else
        env.searchLoop ⟨orNode, ply, hash, bkey, ahand, ownTag, abnTh, obnTh, children⟩
          (fun abnTh obnTh => searchImpl fuel (!orNode) abnTh obnTh (ply + 1)) fuel
          ⟨[], none, BitVec.allOnes 64, own.1⟩

/-! ## The line of a short mate -/

/-- The mate in one after an evasion, unless the evasion repeats a position. -/
def mateAfterEvasion (useApproxMate1 : Bool) : SearchM (Option Move) :=
  ask fun b =>
    if (b.checkRepetition kRepetitionLookbackPly).1 = .none then
      if b.inCheck b.sideToMove || !useApproxMate1 then env.findMateInOne b
      else env.findMateInOneApprox b
    else none

/-- The loop of `Extract3PlyLine` over the evasions: the last evasion and the mate after it, if there
is a mate after every evasion. -/
def matedAfter (useApproxMate1 : Bool) : MoveList → Option (Move × Move) → SearchM (Option (Move × Move))
  | [], last => pure last
  | m2 :: rest, _ => do
    let u2 ← doMove m2 none
    let m3 ← env.mateAfterEvasion useApproxMate1
    undoMove m2 u2
    match m3 with
    | none => return none
    | some m3 => matedAfter useApproxMate1 rest (some (m2, m3))

/-- The loop of `Extract3PlyLine` over the checks. -/
def lineAmong (useApproxMate1 : Bool) : MoveList → SearchM (Option (List Move))
  | [] => pure none
  | m1 :: rest => do
    let u1 ← doMove m1 (some true)
    let rep ← ask fun b => (b.checkRepetition kRepetitionLookbackPly).1
    if rep ≠ .none then
      undoMove m1 u1
      lineAmong useApproxMate1 rest
    else
      let ev ← ask ShogiBoard.generateEvasionMoves
      if ev.isEmpty then
        undoMove m1 u1
        return some [m1]
      else
        let mated ← env.matedAfter useApproxMate1 ev none
        undoMove m1 u1
        match mated with
        | some (m2, m3) => return some [m1, m2, m3]
        | none => lineAmong useApproxMate1 rest

/-- `Extract3PlyLine` on the given checks; a negative `maxChecks` is no bound. -/
def extract3PlyLine (useApproxMate1 : Bool) (maxChecks : Int) (checks : MoveList) :
    SearchM (Option (List Move)) :=
  env.lineAmong useApproxMate1 (if maxChecks < 0 then checks else checks.take maxChecks.toNat)

/-! ## The principal variation -/

/-- A line and its distance to mate; `none` for -1. -/
abbrev Line := Option (Nat × List Move)

/-- `path_hashes_` holds the position after the move already, or the table does not know it as
proved. -/
def skipped (st : SearchState) (m : Move) : Bool :=
  let chash := st.board.hashAfter m
  let proved := (st.ttView chash (env.keyPly st.pathHashes.length)).any fun v => v.abn = 0
  let dominated := env.settings.useDominance &&
    0 < st.finals.probe (st.board.boardKeyAfter m) (attackerHandAfter true st.board .empty m)
  !(proved || dominated) || st.pathHashes.contains chash

/-- The loop of `ExtractPvInner` over the checks; `sub` is the walk below the move. -/
def pvChecks (sub : SearchM Line) : MoveList → Line → SearchM Line
  | [], best => pure best
  | m :: rest, best => do
    modify fun s => { s with extractionSteps := s.extractionSteps + 1 }
    if env.skipped (← get) m then pvChecks sub rest best
    else
      let chash ← ask fun b => b.hashAfter m
      let undo ← doMove m (some true)
      let rep ← ask fun b => (b.checkRepetition kRepetitionLookbackPly).1
      if rep ≠ .none then
        undoMove m undo
        pvChecks sub rest best
      else
        pushHash chash
        let line ← sub
        popHash
        undoMove m undo
        match line with
        | none => pvChecks sub rest best
        | some (d, line) =>
          -- the attacker prefers the shortest line, and none is shorter than two plies
          if best.all fun b => d + 1 < b.1 then
            if d + 1 ≤ 2 then return some (d + 1, m :: line)
            else pvChecks sub rest (some (d + 1, m :: line))
          else pvChecks sub rest best

/-- The loop of `ExtractPvInner` over the evasions. -/
def pvEvasions (sub : SearchM Line) : MoveList → Line → SearchM Line
  | [], best => pure best
  | m :: rest, best => do
    modify fun s => { s with extractionSteps := s.extractionSteps + 1 }
    let chash ← ask fun b => b.hashAfter m
    let undo ← doMove m none
    pushHash chash
    let line ← sub
    popHash
    undoMove m undo
    match line with
    | none => pvEvasions sub rest best
    | some (d, line) =>
      if best.all fun b => b.1 < d then pvEvasions sub rest (some (d, m :: line))
      else pvEvasions sub rest best

/-- A proof that was evicted from the table is searched again, without the finals table. -/
def research (fuel : Nat) (ply : Nat) : SearchM Unit := do
  modify fun s => { s with inExtractionResearch := true }
  env.searchImpl fuel true kInf kInf ply
  modify fun s => { s with inExtractionResearch := false }

/-- The line of a short mate, where one of the frontier probes was in use. -/
def frontierLine (checks : MoveList) : SearchM Line := do
  if env.settings.useMate3Probe || env.settings.useNewNodeBlock then
    match ← env.extract3PlyLine false (-1) checks with
    | some line => return some (line.length, line)
    | none => return none
  else return none

/-- `ExtractPvInner`, with the depth that is left. -/
def extractPvInner (fuel : Nat) : Nat → Bool → SearchM Line
  | 0, _ => pure none
  | depthLeft + 1, orNode => do
    if kExtractionBudget ≤ (← get).extractionSteps then return none
    else if orNode then
      match ← ask env.findMateInOne with
      | some m1 => return some (1, [m1])
      | none =>
        let checks ← ask ShogiBoard.generateCheckingMoves
        match ← env.frontierLine checks with
        | some line => return some line
        | none =>
          match ← env.pvChecks (extractPvInner fuel depthLeft false) checks none with
          | some line => return some line
          | none =>
            let ply := (← get).pathHashes.length - 1
            if env.settings.maxPly ≤ ply + 1 then return none
            else
              env.research fuel ply
              let checks ← ask ShogiBoard.generateCheckingMoves
              env.pvChecks (extractPvInner fuel depthLeft false) checks none
    else
      let moves ← ask ShogiBoard.generateEvasionMoves
      if moves.isEmpty then return some (0, [])
      else
        match ← pvEvasions (extractPvInner fuel depthLeft true) moves none with
        | none => return none
        | some (d, line) => return some (d + 1, line)

/-- `ExtractPV`. -/
def extractPV (fuel : Nat) : SearchM Unit := do
  let hash ← ask ShogiBoard.hash
  modify fun s => { s with pv := [], extractionSteps := 0, pathHashes := [hash] }
  let line ← env.extractPvInner fuel env.settings.maxPly true
  modify fun s => { s with pathHashes := [] }
  match line with
  | none => modify fun s => { s with pv := [], matePly := 0 }
  | some (_, line) => modify fun s => { s with pv := line, matePly := line.length }

/-! ## The entry point -/

/-- What `search` returns: a mating move, `NoMateMove()` or the null move. -/
inductive Answer
  | mate (m : Move)
  | noMate
  | null
  deriving DecidableEq, Repr

/-- The move cache at the start of a search. -/
def resetMoveCache (c : MoveCache) : MoveCache :=
  if 0 < env.settings.moveCacheMb then
    let n := doubled (env.settings.moveCacheMb * 2 ^ 20 % 2 ^ 64 / 256) 64 1024
    let c : MoveCache :=
      if c.mask ≠ BitVec.ofNat 64 (n - 1) then
        ⟨fun _ => .cleared, BitVec.ofNat 64 (n - 1), 0#16⟩
      else c
    if c.gen + 1#16 = 0#16 then
      { c with slots := fun i => { c.slots i with gen := 0#16 }, gen := 1#16 }
    else { c with gen := c.gen + 1#16 }
  else { c with mask := 0#64 }

/-- The members at the start of a search. -/
def reset (board : ShogiBoard) (s : SearchState) : SearchState :=
  { s with
    board := board
    tt := (s.tt.resize env.settings.ttMb).newSearch
    finals :=
      if env.settings.useDominance then
        (s.finals.resize (max (env.settings.ttMb / 4) 1)).newSearch
      else s.finals
    moveCache := env.resetMoveCache s.moveCache
    nodeEntries := 0
    rootProbeMoves := none
    deadlinePassed := false
    stopCheckCounter := 0#64
    limitHit := false
    resourceTaintSeen := false
    pathHashes := []
    overrides := []
    pv := []
    matePly := 0
    summaries := [] }

/-- `stop_.load() || Clock::now() >= deadline_`. -/
def stopOrDeadline : SearchM Bool := do
  if ← env.loadStop then return true
  else
    match env.deadline with
    | none => return false
    | some clock => clockPassed clock

/-- The bounded probe at the root; it answers whether the search is over, and with what. -/
def rootProbe (rootHash : BitVec 64) : SearchM (Option Answer) := do
  if env.settings.rootMate3Checks = 0 then return none
  else
    let checks ← ask ShogiBoard.generateCheckingMoves
    match ← env.extract3PlyLine true env.settings.rootMate3Checks checks with
    | none =>
      modify fun s => { s with rootProbeMoves := some checks }
      return none
    | some line =>
      if ← env.stopOrDeadline then
        popHash
        return some .null
      else
        let root ← storeEntry rootHash 0 none
        setEntry root mateView
        modify fun s => { s with pv := line, matePly := line.length }
        popHash
        return some ((line.head?.map Answer.mate).getD .null)

/-- `search`, once the members are reset. -/
def searchFromRoot (fuel : Nat) : SearchM Answer := do
  if ← env.shouldStop then return .null
  else
    let rootHash ← ask ShogiBoard.hash
    pushHash rootHash
    match ← env.rootProbe rootHash with
    | some answer => return answer
    | none =>
      env.searchImpl fuel true kInf kInf 0
      popHash
      if ← env.loadStop then return .null
      else
        let root := ((← get).ttView rootHash 0).getD .unknown
        if root.abn = 0 then
          env.extractPV fuel
          return ((← get).pv.head?.map Answer.mate).getD .null
        else if root.obn = 0 then return .noMate
        else return .null

/-- `search`. -/
def search (fuel : Nat) (board : ShogiBoard) : SearchM Answer := do
  modify (env.reset board)
  env.searchFromRoot fuel

end Env

/-! ## A solver between searches -/

/-- The members of a new solver. -/
def SearchState.new (board : ShogiBoard) : SearchState where
  board := board
  tt := .new
  finals := .new
  moveCache := ⟨fun _ => .cleared, 0#64, 0#16⟩
  nodeEntries := 0
  rootProbeMoves := none
  inExtractionResearch := false
  deadlinePassed := false
  stopCheckCounter := 0#64
  limitHit := false
  resourceTaintSeen := false
  extractionSteps := 0
  pathHashes := []
  overrides := []
  overrideVersion := 0#64
  pv := []
  matePly := 0
  stopReads := 0
  clockReads := 0
  summaries := []

/-- The states of a solver between its searches, whatever they were. -/
inductive Reached : SearchState → Prop
  | new (board : ShogiBoard) : Reached (.new board)
  | search {s : SearchState} (h : Reached s) (env : Env) (fuel : Nat) (board : ShogiBoard) :
      Reached (env.search fuel board s).2
  | setVictimPolicy {s : SearchState} (h : Reached s) (p : VictimPolicy) :
      Reached { s with tt := s.tt.setVictimPolicy p }
  | setUseEffort {s : SearchState} (h : Reached s) (v : Bool) :
      Reached { s with tt := s.tt.setUseEffort v }

end MateBnsSolver

end Shogi
