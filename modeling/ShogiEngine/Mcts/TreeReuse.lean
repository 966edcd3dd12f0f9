import ShogiEngine.Mcts.NodeStates
import ShogiEngine.Mcts.SearchRules

/-!
# Reuse of the tree

`NodeTree`: between two searches the head moves along the moves played, and all that is not below it is
thrown away. Here the nodes are owned trees (`std::unique_ptr`); a search starts from a memory that shows
the tree below the head, and leaves behind what the memory then shows.

## Main definitions

- `Tree`, `NodeTree`, `resetToPosition`: the source's functions
- `Shows`: the tree below an address
- `Follows`: the moves that lead from one node down to another
- `Reached`: what calls and searches can make of a new `NodeTree`

## Main results

- `follows_walk`: the walk down, and what it keeps
- `Searched.behind`: the node behind a move is again one that searches leave behind
- `resetToPosition_of_reached`: where the head is after a call, when the tree is reused, and what is kept
-/

namespace Shogi.Mcts

/-! ## Owned nodes -/

/-- The fields of `uct_node_t` besides the children. -/
structure NodeData where
  state : NodeState
  moveCount : Int
  win : ℚ
  visitedNnrate : Num

/-- The fields of `child_node_t` besides the node. -/
structure ChildData (M : Type) where
  move : M
  flags : Outcome → Bool
  nnrate : Num
  moveCount : Int
  win : ℚ

/-- A node with its children, each with its node if there is one. -/
inductive Tree (M : Type)
  | node (data : NodeData) (child : List (ChildData M × Option (Tree M)))

namespace Tree

variable {M : Type}

def data : Tree M → NodeData
  | .node data _ => data

def child : Tree M → List (ChildData M × Option (Tree M))
  | .node _ child => child

/-- `std::make_unique<uct_node_t>()`. -/
def fresh : Tree M := .node ⟨.fresh, 0, 0, some 0⟩ []

/-- A child of a new array. -/
def newChild (m : M) : ChildData M × Option (Tree M) := (⟨m, fun _ => false, some 0, 0, 0⟩, none)

/-- `GetOrCreate`. -/
def getOrCreate (c : ChildData M × Option (Tree M)) : ChildData M × Option (Tree M) :=
  (c.1, some (c.2.getD fresh))

/-- `child[0].node.GetOrCreate()`. -/
def createFirst (t : Tree M) : Tree M := .node t.data (t.child.modifyHead getOrCreate)

/-- `CreateSingleChildNode`. -/
def createSingleChildNode (t : Tree M) (m : M) : Tree M := .node t.data [newChild m]

/-- `ReleaseChildrenExceptOne`. The node that it returns is that of the first child. -/
def releaseChildrenExceptOne [DecidableEq M] (t : Tree M) (m : M) : Tree M :=
  if t.child.isEmpty then (t.createSingleChildNode m).createFirst
  else if t.child.length = 1 ∧ t.child.all (·.1.move = m) then t.createFirst
  else if t.child.any (·.1.move = m) then
    .node t.data ((t.child.find? (·.1.move = m)).map getOrCreate).toList
  else (t.createSingleChildNode m).createFirst

/-- `child[0].node.get()`. -/
def first (t : Tree M) : Tree M := (t.child.head?.bind Prod.snd).getD fresh

/-- The node behind a move. -/
def behind [DecidableEq M] (t : Tree M) (m : M) : Tree M :=
  ((t.child.find? (·.1.move = m)).bind Prod.snd).getD fresh

/-- A change of the node of the first child. -/
def mapFirst (f : Tree M → Tree M) (t : Tree M) : Tree M :=
  .node t.data (t.child.modifyHead fun c => (c.1, c.2.map f))

/-- A change of the node that lies `n` first children down. -/
def modifyAt (f : Tree M → Tree M) : Nat → Tree M → Tree M
  | 0, t => f t
  | n + 1, t => t.mapFirst (modifyAt f n)

/-- The loop of `ResetToPosition` over the moves. -/
def walk [DecidableEq M] : List M → Tree M → Tree M
  | [], t => t
  | m :: ms, t => (t.releaseChildrenExceptOne m).mapFirst (walk ms)

end Tree

/-! ## The game tree -/

/-- `NodeTree`. The head lies `currentHead` first children below `gamebeginNode`. -/
structure NodeTree (M : Type) where
  gamebeginNode : Tree M
  currentHead : Nat
  historyStartingPosKey : BitVec 64
  currentPositionMoves : List M
  hasPosition : Bool

namespace NodeTree

variable {M : Type}

/-- A new `NodeTree`, as `DeallocateTree` leaves it. -/
def new : NodeTree M := ⟨.fresh, 0, 0, [], false⟩

/-- `GetCurrentHead`. -/
def getCurrentHead (s : NodeTree M) : Tree M := Tree.first^[s.currentHead] s.gamebeginNode

/-- The tree below the head is replaced. -/
def setCurrentHead (s : NodeTree M) (t : Tree M) : NodeTree M :=
  { s with gamebeginNode := s.gamebeginNode.modifyAt (fun _ => t) s.currentHead }

variable [DecidableEq M]

/-- `ResetToPosition`. -/
def resetToPosition (s : NodeTree M) (startingPosKey : BitVec 64) (moves : List M) :
    NodeTree M × Bool :=
  let sameGame := s.hasPosition && decide (s.historyStartingPosKey = startingPosKey)
  let canReuse := sameGame && decide (s.currentPositionMoves.length ≤ moves.length) &&
    decide (moves.take s.currentPositionMoves.length = s.currentPositionMoves)
  let root := if sameGame then s.gamebeginNode else .fresh
  let walked := root.walk moves
  -- a head above the old one has been pruned
  let kept :=
    if sameGame && !canReuse then
      if moves.isEmpty then .fresh else walked.modifyAt (fun _ => .fresh) moves.length
    else walked
  (⟨kept, moves.length, startingPosKey, moves, true⟩, canReuse)

end NodeTree

/-! ## What a search leaves behind -/

section Searches

variable {ι P M S : Type}

/-- The fields of an edge. -/
def Memory.childData (m : Memory ι P M) (e : Edge) (mv : M) : ChildData M :=
  ⟨mv, m.childFlags e, m.childNnrate e, m.childMoveCount e, m.childWin e⟩

/-- The tree below an address. A node has children from when it is published. -/
inductive Shows (m : Memory ι P M) : Addr → Tree M → Prop
  | node {a : Addr} {child : List (ChildData M × Option (Tree M))} (addr : Nat → Addr)
      (length : child.length = if m.state a = .expanded then m.childNum a else 0)
      (edge : ∀ k c, child[k]? = some c → m.childMove (a, k) = some c.1.move ∧
        c.1 = m.childData (a, k) c.1.move ∧ m.childNode (a, k) = c.2.map fun _ => addr k)
      (below : ∀ (k : Nat) c t, child[k]? = some c → c.2 = some t → Shows m (addr k) t) :
      Shows m a (.node ⟨m.state a, m.moveCount a, m.win a, m.visitedNnrate a⟩ child)

variable [DecidableEq ι] (R : Rules P M) (ops : PuctOps S)

/-- A tree that searches can leave behind at a position. -/
def Searched (ι : Type) [DecidableEq ι] (p : P) (t : Tree M) : Prop :=
  ∃ (m : Memory ι P M) (a : Addr), Grown R ops m a ∧ m.pos a = p ∧ Shows m a t

/-- The first children along `ms` lead from one node to another. -/
inductive Follows : List M → Tree M → Tree M → Prop
  | nil (t) : Follows [] t t
  | cons {ms t h data c rest} (follows : Follows ms t h) :
      Follows (c.move :: ms) (.node data ((c, some t) :: rest)) h

/-- What calls of `ResetToPosition` and `DeallocateTree` can make of a new tree, with searches below the
head in between; `start` gives the start position that a key stands for. -/
inductive Reached (ι : Type) [DecidableEq ι] [DecidableEq M] (start : BitVec 64 → P) :
    NodeTree M → Prop
  | new : Reached ι start .new
  | reset {s} (key moves) (reached : Reached ι start s) :
      Reached ι start (s.resetToPosition key moves).1
  | search {s t} {m : Memory ι P M} {a priors visited c} (reached : Reached ι start s)
      (position : s.hasPosition = true) (grown : Grown R ops m a)
      (board : m.pos a = s.currentPositionMoves.foldl R.doMove (start s.historyStartingPosKey))
      (before : Shows m a s.getCurrentHead)
      (run : (searchers R ops a).Reach (startSearch R m a priors visited) c)
      (joined : ∀ i, c.own i = .joined) (after : Shows c.shared a t) :
      Reached ι start (s.setCurrentHead t)
  | deallocate {s} (reached : Reached ι start s) : Reached ι start .new

end Searches

/-! ## The walk down -/

section Walk

variable {M : Type} {t h : Tree M} {ms : List M} {m : M} {f : Tree M → Tree M}

namespace Tree

variable [DecidableEq M]

theorem child_releaseChildrenExceptOne : (t.releaseChildrenExceptOne m).child =
    [getOrCreate ((t.child.find? (·.1.move = m)).getD (newChild m))] := by
  unfold releaseChildrenExceptOne
  split_ifs with hempty hone hany
  · rw [List.isEmpty_iff.mp hempty]
    rfl
  · obtain ⟨hlen, hall⟩ := hone
    obtain ⟨c, hc⟩ := List.length_eq_one_iff.mp hlen
    rw [hc, List.all_cons, List.all_nil, Bool.and_true] at hall
    rw [createFirst, hc, List.find?_cons_of_pos (by exact hall)]
    rfl
  · obtain ⟨c, hc⟩ := Option.isSome_iff_exists.mp (List.find?_isSome.trans List.any_eq_true.symm |>.mpr hany)
    rw [hc]
    rfl
  · have hnone : t.child.find? (·.1.move = m) = none := by
      rw [List.find?_eq_none]
      intro c hc hm
      exact hany (List.any_eq_true.mpr ⟨c, hc, hm⟩)
    rw [hnone]
    rfl

/-- The child that is kept has the move, and its node is the one behind the move. -/
theorem getOrCreate_kept : ∃ c : ChildData M, c.move = m ∧
    getOrCreate ((t.child.find? (·.1.move = m)).getD (newChild m)) = (c, some (t.behind m)) := by
  unfold behind
  cases hc : t.child.find? (·.1.move = m) with
  | none => exact ⟨_, rfl, rfl⟩
  | some c =>
    have hm := List.find?_some hc
    exact ⟨c.1, of_decide_eq_true hm, rfl⟩

theorem walk_cons : ∃ (data : NodeData) (c : ChildData M), c.move = m ∧
    walk (m :: ms) t = .node data [(c, some (walk ms (t.behind m)))] := by
  obtain ⟨c, hm, hc⟩ := getOrCreate_kept (t := t) (m := m)
  refine ⟨(t.releaseChildrenExceptOne m).data, c, hm, ?_⟩
  rw [walk, mapFirst, child_releaseChildrenExceptOne, hc]
  rfl

/-- The walk ends at the node that the moves lead to, and leaves it as it is. -/
theorem follows_walk : ∀ (ms : List M) (t : Tree M), Follows ms (walk ms t) (ms.foldl behind t)
  | [], t => .nil t
  | m :: ms, t => by
    obtain ⟨data, c, hm, hwalk⟩ : ∃ (data : NodeData) (c : ChildData M), c.move = m ∧
        walk (m :: ms) t = .node data [(c, some (walk ms (t.behind m)))] := walk_cons
    rw [hwalk, List.foldl_cons, ← hm]
    exact .cons (hm ▸ follows_walk ms (t.behind m))

end Tree

namespace Follows

theorem first_iterate (hf : Follows ms t h) : Tree.first^[ms.length] t = h := by
  induction hf with
  | nil t => rfl
  | cons _ ih => exact ih

theorem modifyAt (hf : Follows ms t h) : Follows ms (Tree.modifyAt f ms.length t) (f h) := by
  induction hf with
  | nil t => exact .nil _
  | cons _ ih => exact .cons ih

theorem foldl_behind [DecidableEq M] (hf : Follows ms t h) : ms.foldl Tree.behind t = h := by
  induction hf with
  | nil t => rfl
  | @cons ms t h data c rest _ ih =>
    have hfind : ((c, some t) :: rest).find? (fun x => decide (x.1.move = c.move)) = some (c, some t) :=
      List.find?_cons_of_pos (decide_eq_true rfl)
    have hfirst : Tree.behind (.node data ((c, some t) :: rest)) c.move = t := by
      rw [Tree.behind, Tree.child, hfind]
      rfl
    rw [List.foldl_cons, hfirst, ih]

end Follows

end Walk

/-! ## Trees of searches -/

section Searched

variable {ι P M S : Type} {R : Rules P M} {ops : PuctOps S} {m : Memory ι P M} {a : Addr} {p : P}
  {t : Tree M}

theorem Shows.fresh : Shows (.new p : Memory ι P M) 0 .fresh := by
  refine .node (fun _ => 0) rfl ?_ ?_
  · intro k c hc
    cases hc
  · intro k c t hc
    cases hc

/-- There is a tree below every address. -/
theorem TreeOk.exists_shows (h : TreeOk R m) (a : Addr) : ∃ t, Shows m a t := by
  induction hn : m.next - a using Nat.strong_induction_on generalizing a with
  | _ n ih =>
    by_cases hexp : m.state a = .expanded
    · have hmove : ∀ k, k < m.childNum a → ∃ mv, m.childMove (a, k) = some mv := by
        intro k hk
        obtain ⟨hnum, hmoves⟩ | ⟨hnum, -⟩ := h.built a hexp
        · exact ⟨_, (hmoves k hk).trans (List.getElem?_eq_getElem (hnum ▸ hk))⟩
        · omega
      have hnode : ∀ k, ∃ (b : Addr) (t : Option (Tree M)),
          m.childNode (a, k) = t.map (fun _ => b) ∧ ∀ t', t = some t' → Shows m b t' := by
        intro k
        cases hb : m.childNode (a, k) with
        | none => exact ⟨0, none, rfl, fun t' ht => by cases ht⟩
        | some b =>
          obtain ⟨hlt, hnext, -⟩ := h.child _ _ hb
          have hless : m.next - b < n := hn ▸ Nat.sub_lt_sub_left (hlt.trans hnext) hlt
          obtain ⟨t, ht⟩ := ih _ hless b rfl
          exact ⟨b, some t, rfl, fun t' ht' => Option.some.inj ht' ▸ ht⟩
      choose addr tree haddr htree using hnode
      choose move hmove using hmove
      let child := List.ofFn fun k : Fin (m.childNum a) =>
        (m.childData (a, k) (move k k.2), tree k)
      refine ⟨.node _ child, .node addr ?_ ?_ ?_⟩
      · rw [List.length_ofFn, if_pos hexp]
      · intro k c hk
        obtain ⟨hlt, rfl⟩ := List.getElem?_eq_some_iff.mp hk
        rw [List.getElem_ofFn]
        exact ⟨hmove _ _, rfl, haddr k⟩
      · intro k c t hk ht
        obtain ⟨hlt, rfl⟩ := List.getElem?_eq_some_iff.mp hk
        rw [List.getElem_ofFn] at ht
        exact htree k t ht
    · refine ⟨.node _ [], .node (fun _ => 0) (if_neg hexp).symm ?_ ?_⟩
      · intro k c hc
        cases hc
      · intro k c t hc
        cases hc

variable [DecidableEq ι]

theorem Searched.fresh (p : P) : Searched R ops ι p .fresh := ⟨.new p, 0, .new p, rfl, .fresh⟩

/-- The node behind a move is one that searches can leave behind at the next position. -/
theorem Searched.behind [DecidableEq M] (h : Searched R ops ι p t) (mv : M) :
    Searched R ops ι (R.doMove p mv) (t.behind mv) := by
  obtain ⟨m, a, hgrown, rfl, hshows⟩ := h
  obtain ⟨addr, hlength, hedge, hbelow⟩ := hshows
  rename_i child
  unfold Tree.behind
  cases hfind : (Tree.node _ child).child.find? (·.1.move = mv) with
  | none => exact .fresh _
  | some c =>
    cases hnode : c.2 with
    | none =>
      rw [Option.bind_some, hnode]
      exact .fresh _
    | some t =>
      rw [Option.bind_some, hnode, Option.getD_some]
      obtain ⟨k, hk⟩ := List.mem_iff_getElem?.mp (List.mem_of_find?_eq_some hfind)
      have hmove := List.find?_some hfind
      obtain ⟨hchildMove, -, hchild⟩ := hedge k c hk
      rw [hnode, Option.map_some] at hchild
      obtain ⟨-, -, -, mv', hmv', hpos⟩ := (treeOk_of_grown hgrown).1.child _ _ hchild
      obtain rfl : c.1.move = mv' := Option.some.inj (hchildMove.symm.trans hmv')
      refine ⟨m, addr k, hgrown.toChild hchild, ?_, hbelow k c t hk hnode⟩
      rw [hpos, of_decide_eq_true hmove]

/-- The children of an expanded node are the legal moves. -/
theorem Searched.children (h : Searched R ops ι p t)
    (hno : R.noMove p = true → R.generateLegalMoves p = []) (hexp : t.data.state = .expanded) :
    t.child.map (·.1.move) = R.generateLegalMoves p := by
  obtain ⟨m, a, hgrown, rfl, hshows⟩ := h
  obtain ⟨addr, hlength, hedge, -⟩ := hshows
  rename_i child
  change child.map (·.1.move) = _
  rw [if_pos (by exact hexp)] at hlength
  obtain ⟨hnum, hmoves⟩ | ⟨hnum, hnone⟩ := (treeOk_of_grown hgrown).1.built a hexp
  · apply List.ext_getElem?
    intro k
    rw [List.getElem?_map]
    cases hk : child[k]? with
    | none =>
      have hle : child.length ≤ k := List.getElem?_eq_none_iff.mp hk
      exact (List.getElem?_eq_none (by omega)).symm
    | some c =>
      have hlt : k < child.length := (List.getElem?_eq_some_iff.mp hk).1
      rw [← hmoves k (by omega), (hedge k c hk).1]
      rfl
  · rw [hno hnone, List.eq_nil_of_length_eq_zero (hlength.trans hnum)]
    rfl

/-- A search does not move its root. -/
theorem pos_of_reach {priors visited} {c : Threads.Config ι (Memory ι P M) (Pc P S)}
    (hm : Grown R ops m a) (hrun : (searchers R ops a).Reach (startSearch R m a priors visited) c) :
    c.shared.pos a = m.pos a := by
  refine hrun.invariant (I := fun c => c.shared.pos a = m.pos a) ?_ ?_
  · change (m.expandChildren R a).pos a = m.pos a
    unfold Memory.expandChildren
    split_ifs
    · rfl
    · rfl
  · rintro i c c' hreach hc ⟨s, t, hact, rfl⟩
    obtain ⟨hs, hknown⟩ := known_of_grown hm hreach
    exact ((Act.frame hact hs (hknown i)).1.pos_eq a hs.root_lt).trans hc

end Searched

/-! ## Calls -/

section Calls

variable {ι P M S : Type} [DecidableEq ι] [DecidableEq M] {R : Rules P M} {ops : PuctOps S}
  {start : BitVec 64 → P} {s : NodeTree M} {key : BitVec 64} {moves : List M}

theorem Tree.foldl_behind_fresh : ∀ ms : List M, ms.foldl Tree.behind .fresh = (.fresh : Tree M)
  | [] => rfl
  | _ :: ms => foldl_behind_fresh ms

/-- The tree is reused iff the old line is continued. -/
theorem resetToPosition_reuse : (s.resetToPosition key moves).2 = true ↔
    s.hasPosition = true ∧ s.historyStartingPosKey = key ∧ s.currentPositionMoves <+: moves := by
  unfold NodeTree.resetToPosition
  simp only [Bool.and_eq_true, decide_eq_true_eq, and_assoc]
  refine and_congr_right fun _ => and_congr_right fun _ => ?_
  rw [List.prefix_iff_eq_take]
  constructor
  · rintro ⟨-, htake⟩
    exact htake.symm
  · intro htake
    refine ⟨?_, htake.symm⟩
    rw [htake]
    exact List.length_take_le' _ _

/-- The new head lies at the end of the new moves. -/
theorem follows_resetToPosition : Follows moves (s.resetToPosition key moves).1.gamebeginNode
    (if (s.resetToPosition key moves).2 then moves.foldl Tree.behind s.gamebeginNode else .fresh) := by
  unfold NodeTree.resetToPosition
  set sameGame := s.hasPosition && decide (s.historyStartingPosKey = key) with hsame
  set prefixes := decide (s.currentPositionMoves.length ≤ moves.length) &&
    decide (moves.take s.currentPositionMoves.length = s.currentPositionMoves) with hprefixes
  simp only [Bool.and_assoc, ← hprefixes]
  cases sameGame
  · have hwalk := Tree.follows_walk moves (.fresh : Tree M)
    rw [Tree.foldl_behind_fresh] at hwalk
    exact hwalk
  · cases prefixes
    · cases moves with
      | nil => exact .nil _
      | cons m ms => exact (Tree.follows_walk (m :: ms) s.gamebeginNode).modifyAt (f := fun _ => .fresh)
    · exact Tree.follows_walk moves s.gamebeginNode

theorem getCurrentHead_resetToPosition : (s.resetToPosition key moves).1.getCurrentHead =
    if (s.resetToPosition key moves).2 then moves.foldl Tree.behind s.gamebeginNode else .fresh :=
  follows_resetToPosition.first_iterate

/-- The head lies at the end of the moves, and below it there is only what searches left behind. -/
structure HeadOk (R : Rules P M) (ops : PuctOps S) (ι : Type) [DecidableEq ι] (start : BitVec 64 → P)
    (s : NodeTree M) : Prop where
  length : s.currentHead = s.currentPositionMoves.length
  follows : Follows s.currentPositionMoves s.gamebeginNode s.getCurrentHead
  searched : Searched R ops ι (s.currentPositionMoves.foldl R.doMove (start s.historyStartingPosKey))
    s.getCurrentHead

theorem Searched.foldl_behind {p : P} {t : Tree M} (h : Searched R ops ι p t) (ms : List M) :
    Searched R ops ι (ms.foldl R.doMove p) (ms.foldl Tree.behind t) := by
  induction ms generalizing p t with
  | nil => exact h
  | cons m ms ih => exact ih (h.behind m)

/-- A tree that is reused keeps what is behind the new moves. -/
theorem HeadOk.getCurrentHead_eq (h : HeadOk R ops ι start s)
    (hreuse : (s.resetToPosition key moves).2 = true) :
    (s.resetToPosition key moves).1.getCurrentHead =
      (moves.drop s.currentPositionMoves.length).foldl Tree.behind s.getCurrentHead := by
  obtain ⟨-, -, ms, rfl⟩ := resetToPosition_reuse.mp hreuse
  rw [getCurrentHead_resetToPosition, if_pos hreuse, List.foldl_append, h.follows.foldl_behind,
    List.drop_left]

theorem HeadOk.reset (h : s.hasPosition = true → HeadOk R ops ι start s) :
    HeadOk R ops ι start (s.resetToPosition key moves).1 where
  length := rfl
  follows := getCurrentHead_resetToPosition (M := M) ▸ follows_resetToPosition
  searched := by
    change Searched R ops ι (moves.foldl R.doMove (start key)) _
    by_cases hreuse : (s.resetToPosition key moves).2 = true
    · obtain ⟨hpos, rfl, ms, rfl⟩ := resetToPosition_reuse.mp hreuse
      rw [(h hpos).getCurrentHead_eq hreuse, List.drop_left, List.foldl_append]
      exact (h hpos).searched.foldl_behind ms
    · rw [getCurrentHead_resetToPosition, if_neg hreuse]
      exact .fresh _

omit [DecidableEq M] in
theorem HeadOk.setCurrentHead (h : HeadOk R ops ι start s) {t : Tree M}
    (ht : Searched R ops ι (s.currentPositionMoves.foldl R.doMove (start s.historyStartingPosKey)) t) :
    HeadOk R ops ι start (s.setCurrentHead t) := by
  have hfollows : Follows s.currentPositionMoves (s.setCurrentHead t).gamebeginNode t := by
    have hmodify := h.follows.modifyAt (f := fun _ => t)
    rwa [← h.length] at hmodify
  have hhead : (s.setCurrentHead t).getCurrentHead = t := by
    have hfirst := hfollows.first_iterate
    rwa [← h.length] at hfirst
  exact ⟨h.length, hhead.symm ▸ hfollows, hhead.symm ▸ ht⟩

/-- Every head stands for its position. -/
theorem headOk_of_reached (hs : Reached R ops ι start s) (hpos : s.hasPosition = true) :
    HeadOk R ops ι start s := by
  induction hs with
  | new => cases hpos
  | reset key moves _ ih => exact .reset ih
  | search _ position grown board before run joined after ih =>
    refine (ih position).setCurrentHead ⟨_, _, grown.search run joined, ?_, after⟩
    rw [pos_of_reach grown run, board]
  | deallocate => cases hpos

end Calls

/-! ## The engine's trees -/

/-- A check is answered by the legal moves. -/
theorem generateLegalMoves_of_noMove {f : ShogiBoard → Option Move} {cfg : SearchConfig}
    {b : ShogiBoard} (h : (searchRules f cfg).noMove b = true) : b.generateLegalMoves = [] := by
  unfold Rules.noMove at h
  split_ifs at h with hcheck
  · have hlegal : b.generateLegalMoves = b.generateEvasionMoves := by
      unfold ShogiBoard.generateLegalMoves
      rw [if_neg (by rw [show b.inCheck b.sideToMove = true from hcheck]; exact Bool.false_ne_true)]
    rw [hlegal]
    exact List.isEmpty_iff.mp h
  · exact List.isEmpty_iff.mp h

/-- After a call the head is at the end of the moves. The tree is reused iff the start is the same and
the old moves begin the new ones, and then the head is the node that the new moves lead to from the old
head, with all that is below it; otherwise it is a new node. An expanded head has all legal moves. -/
structure KeepsTree (start : BitVec 64 → ShogiBoard) (s : NodeTree Move) (key : BitVec 64)
    (moves : List Move) : Prop where
  follows : Follows moves (s.resetToPosition key moves).1.gamebeginNode
    (s.resetToPosition key moves).1.getCurrentHead
  reused : (s.resetToPosition key moves).2 = true ↔ s.hasPosition = true ∧
    s.historyStartingPosKey = key ∧ s.currentPositionMoves <+: moves
  kept : (s.resetToPosition key moves).2 = true → (s.resetToPosition key moves).1.getCurrentHead =
    (moves.drop s.currentPositionMoves.length).foldl Tree.behind s.getCurrentHead
  restarted : (s.resetToPosition key moves).2 = false →
    (s.resetToPosition key moves).1.getCurrentHead = .fresh
  children : (s.resetToPosition key moves).1.getCurrentHead.data.state = .expanded →
    (s.resetToPosition key moves).1.getCurrentHead.child.map (·.1.move) =
      (moves.foldl ShogiBoard.doMove (start key)).generateLegalMoves

section Reuse

variable {ι S : Type} [DecidableEq ι] {f : ShogiBoard → Option Move} {cfg : SearchConfig}
  {ops : PuctOps S} {start : BitVec 64 → ShogiBoard} {s : NodeTree Move}

/-- Whatever calls and searches came before. -/
theorem resetToPosition_of_reached (hs : Reached (searchRules f cfg) ops ι start s)
    (key : BitVec 64) (moves : List Move) : KeepsTree start s key moves := by
  have hhead := headOk_of_reached (hs.reset key moves) rfl
  refine ⟨hhead.follows, resetToPosition_reuse, fun hreuse => ?_, fun hreuse => ?_, ?_⟩
  · have hpos := (resetToPosition_reuse.mp hreuse).1
    exact (headOk_of_reached hs hpos).getCurrentHead_eq hreuse
  · rw [getCurrentHead_resetToPosition, if_neg (by rw [hreuse]; exact Bool.false_ne_true)]
  · exact hhead.searched.children generateLegalMoves_of_noMove

/-- A search that expands the root, and then a move of the gold. -/
theorem exists_resetToPosition_goldEnding : ∃ t : Tree Move, t.data.state = .expanded ∧
    KeepsTree (fun _ => .goldEnding) ((NodeTree.new.resetToPosition 7 []).1.setCurrentHead t) 7
      [ShogiBoard.goldForward] := by
  have hrun : (searchers goldRules priorOps 0).Reach
      (startSearch goldRules (.new .goldEnding) 0 (fun _ => some (1 / 9)) (some 0))
      ⟨_, fun _ : Unit => .joined⟩ := .step (i := ()) .start trivial ⟨_, _, .stop _, rfl⟩
  have hgrown : Grown goldRules priorOps (.new .goldEnding : Memory Unit ShogiBoard Move) 0 := .new _
  obtain ⟨t, ht⟩ := (treeOk_of_grown (hgrown.search hrun fun _ => rfl)).1.exists_shows 0
  have hexp : t.data.state = .expanded := by
    cases ht
    rfl
  refine ⟨t, hexp, resetToPosition_of_reached (.search (.reset 7 [] .new) rfl hgrown
    rfl .fresh hrun (fun _ => rfl) ht) _ _⟩

end Reuse

end Shogi.Mcts
