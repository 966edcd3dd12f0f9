import ShogiEngine.Mcts.TreeReuse

/-!
# The bytes of the trees

`TreeMemory::Bytes` counts what the nodes of all trees take up. It is kept by differences: a node adds
itself when it is made, and subtracts itself and its children when it is destroyed, and between the two each
change of the number of children adds or subtracts what it knows to be the difference.

## Main definitions

- `Heap`: the counter, which may not go below zero, and the trees that wait for the collector
- `Tree.releaseMemory`, `NodeTree.resetMemory`: what the functions of the tree do to both
- `Tree.held`: what the live nodes of a tree take up
- `World`, `Event`: all trees of the process, and what is done to them

## Main results

- `balanced_release`, `balanced_reset`: the counter follows the tree
- `bytes_of_run`: after any events the counter is what the live nodes take up
-/

namespace Shogi.Mcts

/-- `sizeof(uct_node_t)` and `sizeof(child_node_t)`. -/
structure Sizes where
  node : Nat
  child : Nat

/-- `TreeMemory::Bytes`, and the trees that the garbage collector holds. -/
structure Heap (M : Type) where
  bytes : Nat
  pending : List (Tree M)

namespace Heap

variable {M : Type}

/-- `fetch_add`. -/
def add (n : Nat) (h : Heap M) : Heap M := { h with bytes := h.bytes + n }

/-- `fetch_sub`; `none` if the counter would wrap below zero. -/
def sub (n : Nat) (h : Heap M) : Option (Heap M) :=
  if n ≤ h.bytes then some { h with bytes := h.bytes - n } else none

/-- `DeleteSubtreeLater`. -/
def deleteLater (h : Heap M) (t : Option (Tree M)) : Heap M := { h with pending := h.pending ++ t.toList }

end Heap

namespace Tree

section Memory

variable {M : Type} (sz : Sizes)

mutual

/-- What the nodes of a tree take up. -/
def held : Tree M → Nat
  | .node _ child => sz.node + child.length * sz.child + heldAll child

/-- What the nodes behind some children take up. -/
def heldAll : List (ChildData M × Option (Tree M)) → Nat
  | [] => 0
  | (_, none) :: rest => heldAll rest
  | (_, some t) :: rest => held t + heldAll rest

end

mutual

/-- `~uct_node_t`. -/
def destroy : Tree M → Heap M → Option (Heap M)
  | .node _ child, h => (h.sub (sz.node + child.length * sz.child)).bind (destroyAll child)

/-- The destructor of an array of children, from the last one to the first. -/
def destroyAll : List (ChildData M × Option (Tree M)) → Heap M → Option (Heap M)
  | [], h => some h
  | (_, none) :: rest, h => destroyAll rest h
  | (_, some t) :: rest, h => (destroyAll rest h).bind (destroy t)

end

/-- `ExpandNode`. -/
def expandNode (t : Tree M) (moves : List M) : Tree M := .node t.data (moves.map newChild)

def expandMemory (t : Tree M) (moves : List M) (h : Heap M) : Option (Heap M) :=
  (destroyAll sz t.child h).map (Heap.add (moves.length * sz.child))

/-- `CreateSingleChildNode`. -/
def createSingleMemory (t : Tree M) (h : Heap M) : Option (Heap M) :=
  let n := t.child.length
  let changed := if n > 1 then h.sub ((n - 1) * sz.child) else some (if n = 0 then h.add sz.child else h)
  changed.bind (destroyAll sz t.child)

/-- `GetOrCreate` where nobody else is at it. -/
def getOrCreateMemory (c : ChildData M × Option (Tree M)) (h : Heap M) : Heap M :=
  if c.2.isSome then h else h.add sz.node

/-- `child[0].node.GetOrCreate()`. -/
def createFirstMemory (t : Tree M) (h : Heap M) : Heap M :=
  (t.child.head?).elim h fun c => getOrCreateMemory sz c h

variable [DecidableEq M]

/-- `ReleaseChildrenExceptOne`. -/
def releaseMemory (t : Tree M) (m : M) (h : Heap M) : Option (Heap M) :=
  if t.child.isEmpty then
    (t.createSingleMemory sz h).map ((t.createSingleChildNode m).createFirstMemory sz)
  else if t.child.length = 1 ∧ t.child.all (·.1.move = m) then some (t.createFirstMemory sz h)
  else if t.child.any (·.1.move = m) then
    let i := t.child.findIdx (·.1.move = m)
    let h := (t.child[i]?).elim h fun c => getOrCreateMemory sz c h
    let h := (t.child.eraseIdx i).foldl (fun h c => h.deleteLater c.2) h
    h.sub ((t.child.length - 1) * sz.child)
  else
    let h := t.child.foldl (fun h c => h.deleteLater c.2) h
    let emptied : Tree M := .node t.data (t.child.map fun c => (c.1, none))
    (emptied.createSingleMemory sz h).map ((emptied.createSingleChildNode m).createFirstMemory sz)

/-- The loop of `ResetToPosition` over the moves. -/
def walkMemory : List M → Tree M → Heap M → Option (Heap M)
  | [], _, h => some h
  | m :: ms, t, h => (t.releaseMemory sz m h).bind (walkMemory ms (t.releaseChildrenExceptOne m).first)

end Memory

/-! ## Nodes on paths -/

variable {M : Type}

/-- The node that the indices of children lead to. -/
def nodeAt : List Nat → Tree M → Option (Tree M)
  | [], t => some t
  | k :: path, t => ((t.child[k]?).bind Prod.snd).bind (nodeAt path)

/-- Another node in its place. -/
def replaceAt (new : Tree M) : List Nat → Tree M → Tree M
  | [], _ => new
  | k :: path, t => .node t.data (t.child.modify k fun c => (c.1, c.2.map (replaceAt new path)))

end Tree

/-! ## The process -/

section Process

variable {M : Type} (sz : Sizes)

namespace NodeTree

/-- Another node below the head. -/
def setNode (g : NodeTree M) (path : List Nat) (t : Tree M) : NodeTree M :=
  g.setCurrentHead (Tree.replaceAt t path g.getCurrentHead)

/-- `DeallocateTree`. -/
def deallocateMemory (g : NodeTree M) (h : Heap M) : Heap M :=
  (h.deleteLater (some g.gamebeginNode)).add sz.node

/-- `ResetToPosition`. -/
def resetMemory [DecidableEq M] (g : NodeTree M) (key : BitVec 64) (moves : List M) (h : Heap M) :
    Option (Heap M) :=
  let sameGame := g.hasPosition && decide (g.historyStartingPosKey = key)
  let canReuse := (g.resetToPosition key moves).2
  let root := if sameGame then g.gamebeginNode else .fresh
  let h := if sameGame then h else g.deallocateMemory sz h
  (root.walkMemory sz moves h).map fun h =>
    -- the old head is thrown away, which is the whole tree if there are no moves
    if sameGame && !canReuse then (h.deleteLater (some (Tree.first^[moves.length] (root.walk moves)))).add sz.node
    else h

end NodeTree

/-- All trees of the process, the counter with the collector, and the nodes that `GetOrCreate` has made but
not yet published. -/
structure World (M : Type) where
  games : List (NodeTree M)
  heap : Heap M
  candidates : Nat

/-- What is done to the trees: the lifecycle of `NodeTree`, the steps of search threads at nodes below the
head, and the thread of the collector. -/
inductive Event (M : Type)
  | construct
  | destruct (i : Nat)
  | deallocate (i : Nat)
  | reset (i : Nat) (key : BitVec 64) (moves : List M)
  | evaluate (i : Nat) (path : List Nat)
  | expand (i : Nat) (path : List Nat) (moves : List M)
  | record (i : Nat) (path : List Nat) (data : NodeData)
  | recordChild (i : Nat) (path : List Nat) (k : Nat) (data : ChildData M)
  | propose
  | settle (i : Nat) (path : List Nat) (k : Nat)
  | collect

namespace Heap

/-- One node that the collector destroys, and then those behind its children, from the last one on. -/
def collect (h : Heap M) : Option (Heap M) :=
  h.pending.head?.elim (some h) fun t =>
    Heap.sub (sz.node + t.child.length * sz.child)
      { h with pending := (t.child.filterMap Prod.snd).reverse ++ h.pending.tail }

end Heap

namespace World

def start : World M := ⟨[], ⟨0, []⟩, 0⟩

/-- Something done to a tree, if it is there. -/
def withGame (w : World M) (i : Nat) (f : NodeTree M → Option (World M)) : Option (World M) :=
  (w.games[i]?).elim (some w) f

/-- Something done at a node below a head, if it is there. -/
def withNode (w : World M) (i : Nat) (path : List Nat) (f : NodeTree M → Tree M → Option (World M)) :
    Option (World M) :=
  w.withGame i fun g => (g.getCurrentHead.nodeAt path).elim (some w) (f g)

def setGame (w : World M) (i : Nat) (g : NodeTree M) (h : Heap M) : World M :=
  { w with games := w.games.set i g, heap := h }

variable [DecidableEq M]

/-- One event. A thread expands a node only if it is not expanded, and publishes a node only in an empty slot. -/
def step (w : World M) : Event M → Option (World M)
  | .construct => some { w with games := w.games ++ [.new], heap := w.heap.add sz.node }
  | .destruct i => w.withGame i fun g =>
    some { w with games := w.games.eraseIdx i, heap := w.heap.deleteLater (some g.gamebeginNode) }
  | .deallocate i => w.withGame i fun g => some (w.setGame i .new (g.deallocateMemory sz w.heap))
  | .reset i key moves => w.withGame i fun g =>
    (g.resetMemory sz key moves w.heap).map (w.setGame i (g.resetToPosition key moves).1)
  | .evaluate i path => w.withNode i path fun g t =>
    some (if t.data.state = .fresh then
      w.setGame i (g.setNode path (.node { t.data with state := .evaluated } t.child)) w.heap else w)
  | .expand i path moves => w.withNode i path fun g t =>
    let data := { t.data with state := .expanded }
    if t.data.state = .expanded then some w
    -- without moves only `child_num` is set
    else if moves.isEmpty then some (w.setGame i (g.setNode path (.node data [])) w.heap)
    else (t.expandMemory sz moves w.heap).map
      (w.setGame i (g.setNode path (.node data (t.expandNode moves).child)))
  | .record i path data => w.withNode i path fun g t =>
    some (w.setGame i (g.setNode path (.node { data with state := t.data.state } t.child)) w.heap)
  | .recordChild i path k data => w.withNode i path fun g t =>
    some (w.setGame i (g.setNode path
      (.node t.data (t.child.modify k fun c => ({ data with move := c.1.move }, c.2)))) w.heap)
  | .propose => some { w with heap := w.heap.add sz.node, candidates := w.candidates + 1 }
  | .settle i path k => w.withNode i path fun g t =>
    if w.candidates = 0 then some w
    else if (t.child[k]?).any (·.2.isNone) then
      some { w.setGame i (g.setNode path (.node t.data (t.child.modify k Tree.getOrCreate))) w.heap with
        candidates := w.candidates - 1 }
    -- another thread was first
    else (w.heap.sub sz.node).map fun h => { w with heap := h, candidates := w.candidates - 1 }
  | .collect => (w.heap.collect sz).map fun h => { w with heap := h }

omit [DecidableEq M] in
/-- What all live nodes take up: those in the trees, those that the collector holds, and the candidates. -/
def held (w : World M) : Nat :=
  (w.games.map fun g => g.gamebeginNode.held sz).sum + (w.heap.pending.map (Tree.held sz)).sum +
    w.candidates * sz.node

omit [DecidableEq M] in
/-- How many nodes the collector still has to destroy. -/
def pendingNodes (w : World M) : Nat := (w.heap.pending.map (Tree.held ⟨1, 0⟩)).sum

end World

end Process

/-! ## Sums over lists -/

section Sums

variable {α : Type} {f : α → Nat} {l : List α} {i : Nat} {a x : α} {g : α → α}

theorem sum_modify (h : l[i]? = some a) :
    ((l.modify i g).map f).sum + f a = (l.map f).sum + f (g a) := by
  induction l generalizing i with
  | nil => cases h
  | cons y l ih =>
    cases i with
    | zero =>
      cases h
      rw [List.modify_zero_cons, List.map_cons, List.map_cons, List.sum_cons, List.sum_cons]
      omega
    | succ i =>
      have hrest := ih (i := i) h
      rw [List.modify_succ_cons, List.map_cons, List.map_cons, List.sum_cons, List.sum_cons]
      omega

theorem sum_set_game (h : l[i]? = some a) : ((l.set i x).map f).sum + f a = (l.map f).sum + f x := by
  rw [List.set_eq_modify]
  exact sum_modify h

theorem sum_eraseIdx_add (h : l[i]? = some a) : ((l.eraseIdx i).map f).sum + f a = (l.map f).sum := by
  induction l generalizing i with
  | nil => cases h
  | cons y l ih =>
    cases i with
    | zero =>
      cases h
      rw [List.eraseIdx_cons_zero, List.map_cons, List.sum_cons]
      omega
    | succ i =>
      have hrest := ih (i := i) h
      rw [List.eraseIdx_cons_succ, List.map_cons, List.map_cons, List.sum_cons, List.sum_cons]
      omega

end Sums

/-! ## The counter and the trees that wait -/

section Balanced

variable {M : Type} {sz : Sizes} {h : Heap M} {n k : Nat} {t : Tree M} {m : M}
  {c : ChildData M × Option (Tree M)} {child : List (ChildData M × Option (Tree M))}

/-- Apart from the trees that wait for the collector, the counter is `n`. -/
def Heap.Balanced (sz : Sizes) (h : Heap M) (n : Nat) : Prop :=
  h.bytes = n + (h.pending.map (Tree.held sz)).sum

/-- What the node of a child takes up, if there is one. -/
def heldNode (sz : Sizes) (t : Option (Tree M)) : Nat := (t.map (Tree.held sz)).getD 0

namespace Heap.Balanced

theorem add (hh : h.Balanced sz n) (k : Nat) : (h.add k).Balanced sz (n + k) := by
  rw [Heap.Balanced] at hh ⊢
  rw [Heap.add]
  dsimp only
  omega

theorem sub (hh : h.Balanced sz (n + k)) : ∃ h', h.sub k = some h' ∧ h'.Balanced sz n := by
  rw [Heap.Balanced] at hh
  refine ⟨_, if_pos (by omega), ?_⟩
  rw [Heap.Balanced]
  dsimp only
  omega

theorem deleteLater {t : Option (Tree M)} (hh : h.Balanced sz (n + heldNode sz t)) :
    (h.deleteLater t).Balanced sz n := by
  rw [Heap.Balanced] at hh ⊢
  rw [Heap.deleteLater, List.map_append, List.sum_append]
  cases t with
  | none => exact hh
  | some t =>
    have hheld : heldNode sz (some t) = t.held sz := rfl
    rw [Option.toList_some, List.map_singleton, List.sum_singleton]
    dsimp only
    omega

theorem congr {n' : Nat} (hh : h.Balanced sz n) (e : n = n') : h.Balanced sz n' := e ▸ hh

end Heap.Balanced

namespace Tree

theorem held_eq : t.held sz = sz.node + t.child.length * sz.child + heldAll sz t.child := by
  cases t
  rw [held, child]

theorem held_fresh : (fresh : Tree M).held sz = sz.node := by
  rw [held_eq, fresh, child, List.length_nil, heldAll]
  omega

theorem heldAll_cons : heldAll sz (c :: child) = heldNode sz c.2 + heldAll sz child := by
  obtain ⟨d, t⟩ := c
  cases t with
  | none => rw [heldAll, heldNode, Option.map_none, Option.getD_none, Nat.zero_add]
  | some t => rw [heldAll, heldNode, Option.map_some, Option.getD_some]

theorem heldAll_eq_sum : heldAll sz child = (child.map fun c => heldNode sz c.2).sum := by
  induction child with
  | nil => rfl
  | cons c child ih => rw [heldAll_cons, ih, List.map_cons, List.sum_cons]

theorem heldAll_filterMap : ((child.filterMap Prod.snd).map (held sz)).sum = heldAll sz child := by
  induction child with
  | nil => rfl
  | cons c child ih =>
    obtain ⟨d, t⟩ := c
    cases t with
    | none => rw [List.filterMap_cons_none rfl, heldAll, ih]
    | some t =>
      have hcons : ((d, some t) :: child).filterMap Prod.snd = t :: child.filterMap Prod.snd := rfl
      rw [hcons, heldAll, List.map_cons, List.sum_cons, ih]

/-- A first child with its node. -/
theorem held_cons (data : NodeData) (d : ChildData M) (t : Tree M) :
    (Tree.node data ((d, some t) :: child)).held sz =
      sz.node + (child.length + 1) * sz.child + (t.held sz + heldAll sz child) := by
  rw [held_eq, Tree.child, heldAll, List.length_cons]

/-- A node with no other child. -/
theorem held_single (data : NodeData) (d : ChildData M) :
    (Tree.node data [(d, some t)]).held sz = sz.node + sz.child + t.held sz := by
  rw [held_cons, heldAll, List.length_nil]
  omega

/-- Children without nodes. -/
theorem heldAll_of_none (hnone : ∀ c ∈ child, c.2 = none) : heldAll sz child = 0 := by
  rw [heldAll_eq_sum]
  refine List.sum_eq_zero fun x hx => ?_
  obtain ⟨c, hc, rfl⟩ := List.mem_map.mp hx
  rw [hnone c hc]
  rfl

mutual

/-- Destroying a tree subtracts what it holds. -/
theorem balanced_destroy : ∀ (t : Tree M) {h : Heap M} {n : Nat}, h.Balanced sz (n + t.held sz) →
    ∃ h', t.destroy sz h = some h' ∧ h'.Balanced sz n
  | .node d child, h, n, hh => by
    rw [held] at hh
    obtain ⟨h1, hs1, hb1⟩ := Heap.Balanced.sub (n := n + heldAll sz child)
      (k := sz.node + child.length * sz.child) (hh.congr (by omega))
    obtain ⟨h2, hs2, hb2⟩ := balanced_destroyAll child hb1
    exact ⟨h2, by rw [destroy, hs1]; exact hs2, hb2⟩

theorem balanced_destroyAll : ∀ (child : List (ChildData M × Option (Tree M))) {h : Heap M} {n : Nat},
    h.Balanced sz (n + heldAll sz child) → ∃ h', destroyAll sz child h = some h' ∧ h'.Balanced sz n
  | [], h, n, hh => ⟨h, by rw [destroyAll], by rwa [heldAll] at hh⟩
  | (d, none) :: rest, h, n, hh => by
    rw [heldAll] at hh
    obtain ⟨h', hs, hb⟩ := balanced_destroyAll rest hh
    exact ⟨h', by rw [destroyAll, hs], hb⟩
  | (d, some t) :: rest, h, n, hh => by
    rw [heldAll, ← Nat.add_assoc] at hh
    obtain ⟨h1, hs1, hb1⟩ := balanced_destroyAll rest hh
    obtain ⟨h2, hs2, hb2⟩ := balanced_destroy t hb1
    exact ⟨h2, by rw [destroyAll, hs1]; exact hs2, hb2⟩

end

/-- Whatever children there were, one without a node is left. -/
theorem balanced_createSingle (hh : h.Balanced sz (n + t.held sz)) : ∃ h', t.createSingleMemory sz h = some h' ∧
    h'.Balanced sz (n + (t.createSingleChildNode m).held sz) := by
  have hnew : (t.createSingleChildNode m).held sz = sz.node + sz.child := by
    rw [held_eq, createSingleChildNode, child, heldAll_cons, List.length_singleton, Nat.one_mul]
    rfl
  have hchange : ∃ h1, (if t.child.length > 1 then h.sub ((t.child.length - 1) * sz.child)
      else some (if t.child.length = 0 then h.add sz.child else h)) = some h1 ∧
      h1.Balanced sz (n + (sz.node + sz.child) + heldAll sz t.child) := by
    rw [held_eq] at hh
    by_cases hmany : t.child.length > 1
    · obtain ⟨l, hl⟩ := Nat.exists_eq_add_of_lt hmany
      rw [hl] at hh ⊢
      rw [if_pos (by omega)]
      refine Heap.Balanced.sub (hh.congr ?_)
      have hminus : 1 + l + 1 - 1 = 1 + l := by omega
      rw [hminus, Nat.add_mul (1 + l) 1]
      omega
    · rw [if_neg hmany]
      by_cases hnone : t.child.length = 0
      · rw [if_pos hnone]
        rw [hnone] at hh
        exact ⟨_, rfl, (hh.add sz.child).congr (by omega)⟩
      · have hone : t.child.length = 1 := by omega
        rw [if_neg hnone]
        rw [hone] at hh
        exact ⟨_, rfl, hh.congr (by omega)⟩
  obtain ⟨h1, hs1, hb1⟩ := hchange
  obtain ⟨h2, hs2, hb2⟩ := balanced_destroyAll t.child hb1
  refine ⟨h2, ?_, hnew ▸ hb2⟩
  rw [createSingleMemory, hs1]
  exact hs2

theorem balanced_getOrCreate (hh : h.Balanced sz (n + heldNode sz c.2)) :
    (getOrCreateMemory sz c h).Balanced sz (n + heldNode sz (getOrCreate c).2) := by
  rw [getOrCreateMemory, getOrCreate]
  obtain ⟨d, t⟩ := c
  cases t with
  | none =>
    have hfresh : heldNode sz (some (fresh : Tree M)) = sz.node := held_fresh
    rw [if_neg (by simp), Option.getD_none, hfresh]
    exact (hh.add sz.node).congr rfl
  | some t =>
    have hsome : (d, some t).2.isSome = true := rfl
    rw [if_pos hsome]
    exact hh

theorem balanced_createFirst (hh : h.Balanced sz (n + t.held sz)) :
    (t.createFirstMemory sz h).Balanced sz (n + t.createFirst.held sz) := by
  rw [createFirstMemory, createFirst]
  obtain ⟨d, child⟩ := t
  cases child with
  | nil => exact hh
  | cons c child =>
    rw [held_eq, Tree.child, heldAll_cons] at hh
    have hnew := balanced_getOrCreate (c := c)
      (n := n + sz.node + (c :: child).length * sz.child + heldAll sz child) (hh.congr (by omega))
    rw [held_eq]
    refine hnew.congr ?_
    change _ = n + (sz.node + (getOrCreate c :: child).length * sz.child + heldAll sz (getOrCreate c :: child))
    rw [heldAll_cons, List.length_cons, List.length_cons]
    omega

/-- Handing over the nodes of some children. -/
theorem balanced_deleteLater (child : List (ChildData M × Option (Tree M))) (hh : h.Balanced sz (n + heldAll sz child)) :
    (child.foldl (fun h c => h.deleteLater c.2) h).Balanced sz n := by
  induction child generalizing h with
  | nil => exact hh
  | cons c child ih =>
    rw [heldAll_cons] at hh
    rw [List.foldl_cons]
    exact ih (Heap.Balanced.deleteLater (hh.congr (by omega)))

/-! ## Moving the head -/

section Walk

variable [DecidableEq M]

omit [DecidableEq M] in
/-- The node of a child that has been looked for. -/
theorem getElem?_findIdx {p : ChildData M × Option (Tree M) → Bool} (hany : child.any p = true) :
    child[child.findIdx p]? = child.find? p ∧ (child.find? p).isSome = true := by
  have hsome : (child.find? p).isSome = true := List.find?_isSome.trans List.any_eq_true.symm |>.mpr hany
  exact ⟨(List.find?_eq_getElem?_findIdx).symm, hsome⟩

/-- The counter follows the tree. -/
theorem balanced_release (hh : h.Balanced sz (n + t.held sz)) : ∃ h', t.releaseMemory sz m h = some h' ∧
    h'.Balanced sz (n + (t.releaseChildrenExceptOne m).held sz) := by
  unfold releaseMemory releaseChildrenExceptOne
  by_cases hempty : t.child.isEmpty = true
  · obtain ⟨h1, hs1, hb1⟩ := balanced_createSingle (m := m) hh
    rw [if_pos hempty, if_pos hempty, hs1]
    exact ⟨_, rfl, balanced_createFirst hb1⟩
  by_cases hone : t.child.length = 1 ∧ t.child.all (·.1.move = m) = true
  · rw [if_neg hempty, if_neg hempty, if_pos hone, if_pos hone]
    exact ⟨_, rfl, balanced_createFirst hh⟩
  by_cases hany : t.child.any (·.1.move = m) = true
  · obtain ⟨hget, hsome⟩ := getElem?_findIdx hany
    obtain ⟨c, hc⟩ := Option.isSome_iff_exists.mp hsome
    rw [hc] at hget
    rw [if_neg hempty, if_neg hempty, if_neg hone, if_neg hone, if_pos hany, if_pos hany, hc]
    dsimp only
    rw [hget, Option.elim_some]
    have hlen : t.child.length - 1 + 1 = t.child.length :=
      Nat.succ_pred_eq_of_pos (List.length_pos_iff.mpr fun e => hempty (by rw [e]; rfl))
    have hall := sum_eraseIdx_add (f := fun c => heldNode sz c.2) hget
    rw [← heldAll_eq_sum, ← heldAll_eq_sum] at hall
    rw [held_eq, ← hlen, Nat.add_mul, Nat.one_mul, ← hall] at hh
    -- the node of the child that is kept is made first, and the siblings are handed over
    have hmade := balanced_getOrCreate (c := c) (n := n + sz.node + sz.child +
      heldAll sz (t.child.eraseIdx (t.child.findIdx (·.1.move = m))) + (t.child.length - 1) * sz.child)
      (hh.congr (by omega))
    have hgiven := balanced_deleteLater (t.child.eraseIdx (t.child.findIdx (·.1.move = m)))
      (n := n + sz.node + sz.child + heldNode sz (getOrCreate c).2 + (t.child.length - 1) * sz.child)
      (hmade.congr (by omega))
    obtain ⟨h', hs, hb⟩ := hgiven.sub
    refine ⟨h', hs, hb.congr ?_⟩
    have hnew : heldAll sz ((Option.some c).map getOrCreate).toList = heldNode sz (getOrCreate c).2 := by
      rw [Option.map_some, Option.toList_some, heldAll_cons, heldAll, Nat.add_zero]
    rw [held_eq, child, hnew, Option.map_some, Option.toList_some, List.length_singleton]
    omega
  · rw [if_neg hempty, if_neg hempty, if_neg hone, if_neg hone, if_neg hany, if_neg hany]
    dsimp only
    rw [held_eq] at hh
    have hgiven := balanced_deleteLater t.child (n := n + (sz.node + t.child.length * sz.child))
      (hh.congr (by omega))
    have hemptied : (Tree.node t.data (t.child.map fun c => (c.1, none))).held sz =
        sz.node + t.child.length * sz.child := by
      have hnone : ∀ c ∈ t.child.map (fun c => (c.1, (none : Option (Tree M)))), c.2 = none := by
        intro c hc
        obtain ⟨c', -, rfl⟩ := List.mem_map.mp hc
        rfl
      rw [held_eq, child, heldAll_of_none hnone, List.length_map, Nat.add_zero]
    rw [← hemptied] at hgiven
    obtain ⟨h1, hs1, hb1⟩ := balanced_createSingle (m := m) hgiven
    rw [hs1]
    exact ⟨_, rfl, balanced_createFirst hb1⟩

theorem releaseChildrenExceptOne_eq : ∃ (data : NodeData) (c : ChildData M), c.move = m ∧
    t.releaseChildrenExceptOne m = .node data [(c, some (t.behind m))] := by
  obtain ⟨c, hm, hc⟩ := getOrCreate_kept (t := t) (m := m)
  refine ⟨(t.releaseChildrenExceptOne m).data, c, hm, ?_⟩
  rw [← hc, ← child_releaseChildrenExceptOne]
  cases t.releaseChildrenExceptOne m
  rfl

theorem balanced_walk (ms : List M) (hh : h.Balanced sz (n + t.held sz)) : ∃ h', t.walkMemory sz ms h = some h' ∧
    h'.Balanced sz (n + (t.walk ms).held sz) := by
  induction ms generalizing t h n with
  | nil => exact ⟨h, rfl, hh⟩
  | cons m ms ih =>
    obtain ⟨h1, hs1, hb1⟩ := balanced_release (m := m) hh
    obtain ⟨data, c, -, hrelease⟩ := releaseChildrenExceptOne_eq (t := t) (m := m)
    have hfirst : (t.releaseChildrenExceptOne m).first = t.behind m := by rw [hrelease]; rfl
    rw [hrelease, held_single] at hb1
    obtain ⟨h2, hs2, hb2⟩ := ih (t := t.behind m) (n := n + (sz.node + sz.child)) (hb1.congr (by omega))
    refine ⟨h2, ?_, ?_⟩
    · rw [walkMemory, hs1, Option.bind_some, hfirst]
      exact hs2
    · obtain ⟨data, c, -, hwalk⟩ := @walk_cons M t ms m _
      rw [hwalk, held_single]
      exact hb2.congr (by omega)

end Walk

end Tree

/-- Another node in the place of the head. -/
theorem Follows.held_modifyAt (sz : Sizes) {t h : Tree M} {ms : List M} (f : Tree M → Tree M) (hf : Follows ms t h) :
    (t.modifyAt f ms.length).held sz + h.held sz = t.held sz + (f h).held sz := by
  induction hf with
  | nil t => exact Nat.add_comm _ _
  | @cons ms t h data c rest _ ih =>
    have hstep : Tree.modifyAt f (c.move :: ms).length (.node data ((c, some t) :: rest)) =
        .node data ((c, some (t.modifyAt f ms.length)) :: rest) := rfl
    rw [hstep, Tree.held_cons, Tree.held_cons]
    omega

end Balanced

/-! ## Nodes that are not expanded -/

/-- Nodes that are not expanded have no children yet. -/
inductive Tree.Tidy {M : Type} : Tree M → Prop
  | node {data : NodeData} {child : List (ChildData M × Option (Tree M))}
      (leaf : data.state ≠ .expanded → child = [])
      (below : ∀ c ∈ child, ∀ t, c.2 = some t → Tidy t) : Tidy (.node data child)

section Tidy

variable {M : Type} {sz : Sizes} {t t' r : Tree M} {path : List Nat}

namespace Tree

theorem Tidy.fresh : (Tree.fresh : Tree M).Tidy :=
  .node (fun _ => rfl) fun _ hc => absurd hc List.not_mem_nil

theorem Tidy.leaf (ht : t.Tidy) (hs : t.data.state ≠ .expanded) : t.child = [] := by
  cases ht with
  | node leaf _ => exact leaf hs

theorem Tidy.child_node (ht : t.Tidy) {c : ChildData M × Option (Tree M)} (hc : c ∈ t.child)
    (hnode : c.2 = some t') : t'.Tidy := by
  cases ht with
  | node _ below => exact below c hc t' hnode

theorem Tidy.behind [DecidableEq M] (ht : t.Tidy) (m : M) : (t.behind m).Tidy := by
  rw [Tree.behind]
  cases hfind : t.child.find? (·.1.move = m) with
  | none => exact Tidy.fresh
  | some c =>
    rw [Option.bind_some]
    cases hnode : c.2 with
    | none => exact Tidy.fresh
    | some t' => exact ht.child_node (List.mem_of_find?_eq_some hfind) hnode

theorem Tidy.foldl_behind [DecidableEq M] (ht : t.Tidy) (ms : List M) : (ms.foldl Tree.behind t).Tidy := by
  induction ms generalizing t with
  | nil => exact ht
  | cons m ms ih => exact ih (ht.behind m)

/-- A child and its node on a path. -/
theorem exists_of_nodeAt_cons {k : Nat} (h : t.nodeAt (k :: path) = some t') :
    ∃ d s, t.child[k]? = some (d, some s) ∧ s.nodeAt path = some t' := by
  rw [nodeAt] at h
  obtain ⟨s, hs, hpath⟩ := Option.bind_eq_some_iff.mp h
  obtain ⟨⟨d, s'⟩, hc, rfl⟩ := Option.bind_eq_some_iff.mp hs
  exact ⟨d, s, hc, hpath⟩

theorem Tidy.nodeAt (ht : t.Tidy) (h : t.nodeAt path = some t') : t'.Tidy := by
  induction path generalizing t with
  | nil =>
    rw [Tree.nodeAt] at h
    exact Option.some.inj h ▸ ht
  | cons k path ih =>
    obtain ⟨d, s, hc, hpath⟩ := exists_of_nodeAt_cons h
    exact ih (ht.child_node (List.mem_of_getElem? hc) rfl) hpath

/-- A change of one child. -/
theorem Tidy.modify {f : ChildData M × Option (Tree M) → ChildData M × Option (Tree M)} {k : Nat} (ht : t.Tidy)
    (hf : ∀ c ∈ t.child, ∀ s, (f c).2 = some s → s.Tidy) : (Tree.node t.data (t.child.modify k f)).Tidy := by
  refine .node (fun hs => ?_) fun c hc s hnode => ?_
  · rw [ht.leaf hs]
    cases k <;> rfl
  · -- the child is one of those before, or the one that is changed
    obtain ⟨j, hj⟩ := List.mem_iff_getElem?.mp hc
    rw [List.getElem?_modify] at hj
    obtain ⟨x, hx, rfl⟩ := Option.map_eq_some_iff.mp hj
    have hmem := List.mem_of_getElem? hx
    split at hnode
    · exact hf x hmem s hnode
    · exact ht.child_node hmem hnode

theorem Tidy.replaceAt (path : List Nat) (ht : t.Tidy) (hr : r.Tidy) : (Tree.replaceAt r path t).Tidy := by
  induction path generalizing t with
  | nil => exact hr
  | cons k path ih =>
    rw [Tree.replaceAt]
    refine ht.modify fun c hc s hnode => ?_
    obtain ⟨s', hs', rfl⟩ := Option.map_eq_some_iff.mp hnode
    exact ih (ht.child_node hc hs')

/-- What a change of one child makes of the whole. -/
theorem held_modify (sz : Sizes) {f : ChildData M × Option (Tree M) → ChildData M × Option (Tree M)} {k : Nat}
    {c : ChildData M × Option (Tree M)} (hc : t.child[k]? = some c) :
    (Tree.node t.data (t.child.modify k f)).held sz + heldNode sz c.2 = t.held sz + heldNode sz (f c).2 := by
  have hsum := sum_modify (f := fun c => heldNode sz c.2) (g := f) hc
  rw [← heldAll_eq_sum, ← heldAll_eq_sum] at hsum
  rw [held_eq, held_eq (t := t), child, List.length_modify]
  omega

/-- What another node on a path makes of the whole. -/
theorem held_replaceAt (sz : Sizes) (h : t.nodeAt path = some t') :
    (replaceAt r path t).held sz + t'.held sz = t.held sz + r.held sz := by
  induction path generalizing t with
  | nil =>
    rw [nodeAt, Option.some.injEq] at h
    rw [replaceAt, h, Nat.add_comm]
  | cons k path ih =>
    obtain ⟨d, s, hc, hpath⟩ := exists_of_nodeAt_cons h
    have hmodify := held_modify sz (f := fun c => (c.1, c.2.map (replaceAt r path))) hc
    have hrest := ih hpath
    have hnode : ∀ s : Tree M, heldNode sz (some s) = s.held sz := fun _ => rfl
    rw [Option.map_some, hnode, hnode] at hmodify
    rw [replaceAt]
    omega

end Tree

end Tidy

/-! ## Heads -/

/-- The head lies at the end of the moves, and the nodes from it on are tidy. -/
structure NodeTree.Headed {M : Type} (g : NodeTree M) : Prop where
  length : g.currentHead = g.currentPositionMoves.length
  follows : Follows g.currentPositionMoves g.gamebeginNode g.getCurrentHead
  tidy : g.getCurrentHead.Tidy

section Headed

variable {M : Type} {sz : Sizes} {g : NodeTree M} {h : Heap M} {n : Nat} {key : BitVec 64} {moves : List M}
  {path : List Nat} {t r : Tree M}

namespace NodeTree

theorem Headed.new : (NodeTree.new : NodeTree M).Headed := ⟨rfl, .nil _, .fresh⟩

/-- A change below the head leaves the way to it. -/
theorem Headed.setCurrentHead (sz : Sizes) (hg : g.Headed) (ht : t.Tidy) : (g.setCurrentHead t).Headed ∧
    (g.setCurrentHead t).gamebeginNode.held sz + g.getCurrentHead.held sz =
      g.gamebeginNode.held sz + t.held sz := by
  have hfollows : Follows g.currentPositionMoves (g.setCurrentHead t).gamebeginNode t := by
    have hmodify := hg.follows.modifyAt (f := fun _ => t)
    rwa [← hg.length] at hmodify
  have hhead : (g.setCurrentHead t).getCurrentHead = t := by
    have hfirst := hfollows.first_iterate
    rwa [← hg.length] at hfirst
  have hheld := hg.follows.held_modifyAt sz fun _ => t
  rw [← hg.length] at hheld
  exact ⟨⟨hg.length, hhead.symm ▸ hfollows, hhead.symm ▸ ht⟩, hheld⟩

/-- Another node below the head. -/
theorem Headed.setNode (sz : Sizes) (hg : g.Headed) (hnode : g.getCurrentHead.nodeAt path = some t) (hr : r.Tidy) :
    (g.setNode path r).Headed ∧
      (g.setNode path r).gamebeginNode.held sz + t.held sz = g.gamebeginNode.held sz + r.held sz := by
  obtain ⟨hhead, hheld⟩ := hg.setCurrentHead sz (hg.tidy.replaceAt path hr)
  have hreplace := Tree.held_replaceAt sz (r := r) hnode
  refine ⟨hhead, ?_⟩
  change (g.setCurrentHead _).gamebeginNode.held sz + _ = _
  omega

/-- A node below the head is part of the tree. -/
theorem Headed.held_le (sz : Sizes) (hg : g.Headed) (hnode : g.getCurrentHead.nodeAt path = some t) :
    t.held sz ≤ g.gamebeginNode.held sz := by
  obtain ⟨-, hheld⟩ := hg.setNode sz hnode .fresh
  have hpositive : sz.node ≤ (g.setNode path .fresh).gamebeginNode.held sz := by
    rw [Tree.held_eq]
    omega
  rw [Tree.held_fresh] at hheld
  omega

variable [DecidableEq M]

/-- The head after a call. -/
theorem Headed.reset (hg : g.Headed) : (g.resetToPosition key moves).1.Headed where
  length := rfl
  follows := getCurrentHead_resetToPosition (M := M) ▸ follows_resetToPosition
  tidy := by
    rw [getCurrentHead_resetToPosition]
    split
    · rename_i hreuse
      obtain ⟨-, -, ms, rfl⟩ := resetToPosition_reuse.mp hreuse
      rw [List.foldl_append, hg.follows.foldl_behind]
      exact hg.tidy.foldl_behind ms
    · exact .fresh

/-- The counter follows the tree through a call. -/
theorem balanced_reset (key : BitVec 64) (moves : List M) (hh : h.Balanced sz (n + g.gamebeginNode.held sz)) :
    ∃ h', g.resetMemory sz key moves h = some h' ∧
      h'.Balanced sz (n + (g.resetToPosition key moves).1.gamebeginNode.held sz) := by
  obtain ⟨sameGame, hsame⟩ : ∃ x, (g.hasPosition && decide (g.historyStartingPosKey = key)) = x := ⟨_, rfl⟩
  obtain ⟨root, hroot⟩ : ∃ x, (if sameGame then g.gamebeginNode else .fresh) = x := ⟨_, rfl⟩
  obtain ⟨h1, hh1⟩ : ∃ x, (if sameGame then h else g.deallocateMemory sz h) = x := ⟨_, rfl⟩
  have hb1 : h1.Balanced sz (n + root.held sz) := by
    rw [← hroot, ← hh1]
    cases sameGame with
    | true => exact hh
    | false =>
      have hgiven : (h.deleteLater (some g.gamebeginNode)).Balanced sz n := Heap.Balanced.deleteLater hh
      exact (hgiven.add sz.node).congr (by rw [if_neg Bool.false_ne_true, Tree.held_fresh])
  obtain ⟨h2, hs2, hb2⟩ := Tree.balanced_walk moves hb1
  have hmemory : g.resetMemory sz key moves h = some (if sameGame && !(g.resetToPosition key moves).2 then
      (h2.deleteLater (some (Tree.first^[moves.length] (root.walk moves)))).add sz.node else h2) := by
    unfold resetMemory
    simp only [hsame, hroot, hh1, hs2, Option.map_some]
  have hkept : (g.resetToPosition key moves).1.gamebeginNode =
      if sameGame && !(g.resetToPosition key moves).2 then (root.walk moves).modifyAt (fun _ => .fresh) moves.length
      else root.walk moves := by
    unfold resetToPosition
    simp only [hsame, hroot]
    split
    · cases moves with
      | nil => rfl
      | cons m ms => rfl
    · rfl
  rw [hmemory, hkept]
  refine ⟨_, rfl, ?_⟩
  by_cases hrestart : (sameGame && !(g.resetToPosition key moves).2) = true
  · -- the walk ends at the old head, which makes room for a new node
    have hfollows := Tree.follows_walk moves root
    have hheld := hfollows.held_modifyAt sz fun _ => .fresh
    rw [Tree.held_fresh, ← hfollows.first_iterate] at hheld
    rw [if_pos hrestart, if_pos hrestart]
    have hpositive : sz.node ≤ ((root.walk moves).modifyAt (fun _ => .fresh) moves.length).held sz := by
      rw [Tree.held_eq]
      omega
    have hgiven : (h2.deleteLater (some (Tree.first^[moves.length] (root.walk moves)))).Balanced sz
        (n + (root.walk moves).held sz - (Tree.first^[moves.length] (root.walk moves)).held sz) := by
      refine Heap.Balanced.deleteLater (hb2.congr ?_)
      change _ = _ + (Tree.first^[moves.length] (root.walk moves)).held sz
      omega
    exact (hgiven.add sz.node).congr (by omega)
  · rw [if_neg hrestart, if_neg hrestart]
    exact hb2

end NodeTree

end Headed

/-! ## All trees -/

section Sound

variable {M : Type} {sz : Sizes} {w w' : World M} {h : Heap M} {g g' : NodeTree M} {t r : Tree M} {n i : Nat}
  {path : List Nat}

/-- One node goes, and its children wait in its place. -/
theorem Heap.Balanced.collect (hh : h.Balanced sz n) : ∃ h', h.collect sz = some h' ∧ h'.Balanced sz n := by
  rw [Heap.collect]
  cases hpending : h.pending with
  | nil => exact ⟨h, rfl, hh⟩
  | cons t rest =>
    rw [Heap.Balanced, hpending, List.map_cons, List.sum_cons, Tree.held_eq] at hh
    have hbehind : (((t.child.filterMap Prod.snd).reverse ++ rest).map (Tree.held sz)).sum =
        Tree.heldAll sz t.child + (rest.map (Tree.held sz)).sum := by
      rw [List.map_append, List.sum_append, List.map_reverse, List.sum_reverse, Tree.heldAll_filterMap]
    rw [List.head?_cons, Option.elim_some, List.tail_cons]
    refine Heap.Balanced.sub ?_
    rw [Heap.Balanced]
    dsimp only
    omega

namespace World

/-- The counter is what the live nodes take up, and the heads are where they belong. -/
structure Sound (sz : Sizes) (w : World M) : Prop where
  bytes : w.heap.bytes = w.held sz
  headed : ∀ g ∈ w.games, g.Headed

/-- What the other trees and the candidates take up. -/
def others (sz : Sizes) (w : World M) (i : Nat) : Nat :=
  ((w.games.eraseIdx i).map fun g => g.gamebeginNode.held sz).sum + w.candidates * sz.node

theorem sound_start (sz : Sizes) : (start : World M).Sound sz where
  bytes := by
    change 0 = 0 + 0 + 0 * sz.node
    omega
  headed := fun _ hg => absurd hg List.not_mem_nil

namespace Sound

theorem balanced (hw : w.Sound sz) (hg : w.games[i]? = some g) :
    w.heap.Balanced sz (w.others sz i + g.gamebeginNode.held sz) := by
  have hsum := sum_eraseIdx_add (f := fun g : NodeTree M => g.gamebeginNode.held sz) hg
  have hbytes := hw.bytes
  rw [held] at hbytes
  rw [Heap.Balanced, others]
  omega

/-- Another tree in the place of one. -/
theorem setGame (hw : ∀ g ∈ w.games, g.Headed) (hg : w.games[i]? = some g) (hh : h.Balanced sz (w.others sz i +
    g'.gamebeginNode.held sz)) (hg' : g'.Headed) : (w.setGame i g' h).Sound sz where
  bytes := by
    have hsum := sum_eraseIdx_add (f := fun g : NodeTree M => g.gamebeginNode.held sz) hg
    have hset := sum_set_game (f := fun g : NodeTree M => g.gamebeginNode.held sz) (x := g') hg
    rw [Heap.Balanced, others] at hh
    rw [held, World.setGame]
    dsimp only
    omega
  headed := fun x hx => (List.mem_or_eq_of_mem_set hx).elim (hw x) fun e => e ▸ hg'

theorem withGame {f : NodeTree M → Option (World M)} (hw : w.Sound sz)
    (hf : ∀ g, w.games[i]? = some g → ∃ w', f g = some w' ∧ w'.Sound sz) :
    ∃ w', w.withGame i f = some w' ∧ w'.Sound sz := by
  rw [World.withGame]
  cases hg : w.games[i]? with
  | none => exact ⟨w, rfl, hw⟩
  | some g => exact hf g hg

theorem withNode {f : NodeTree M → Tree M → Option (World M)} (hw : w.Sound sz)
    (hf : ∀ g t, w.games[i]? = some g → g.getCurrentHead.nodeAt path = some t →
      ∃ w', f g t = some w' ∧ w'.Sound sz) :
    ∃ w', w.withNode i path f = some w' ∧ w'.Sound sz := by
  refine hw.withGame fun g hg => ?_
  cases ht : g.getCurrentHead.nodeAt path with
  | none => exact ⟨w, rfl, hw⟩
  | some t => exact hf g t hg ht

/-- Another node below a head, where the counter follows the node and the candidates. -/
theorem setNode {c : Nat} (hw : w.Sound sz) (hg : w.games[i]? = some g)
    (ht : g.getCurrentHead.nodeAt path = some t) (hr : r.Tidy)
    (hh : ∀ k, w.heap.Balanced sz (k + w.candidates * sz.node + t.held sz) →
      h.Balanced sz (k + c * sz.node + r.held sz)) :
    ({ w.setGame i (g.setNode path r) h with candidates := c }).Sound sz := by
  obtain ⟨hheaded, hheld⟩ := (hw.headed g (List.mem_of_getElem? hg)).setNode sz ht hr
  have hpositive := (hw.headed g (List.mem_of_getElem? hg)).held_le sz ht
  have hbalanced := hw.balanced hg
  rw [others] at hbalanced
  refine setGame (w := { w with candidates := c }) hw.headed hg ?_ hheaded
  rw [others]
  dsimp only
  have hnew := hh (((w.games.eraseIdx i).map fun g => g.gamebeginNode.held sz).sum +
    g.gamebeginNode.held sz - t.held sz) (hbalanced.congr (by omega))
  exact hnew.congr (by omega)

/-- A change of a node that takes up as much as before. -/
theorem setNode_same (hw : w.Sound sz) (hg : w.games[i]? = some g) (ht : g.getCurrentHead.nodeAt path = some t)
    (hr : r.Tidy) (hheld : r.held sz = t.held sz) : (w.setGame i (g.setNode path r) w.heap).Sound sz :=
  hw.setNode hg ht hr fun _ hb => hheld ▸ hb

variable [DecidableEq M]

/-- One event never takes more from the counter than there is, and the counter stays what the nodes take up. -/
theorem step (hw : w.Sound sz) (e : Event M) : ∃ w', w.step sz e = some w' ∧ w'.Sound sz := by
  cases e with
  | construct =>
    refine ⟨_, rfl, ?_, fun g hg => ?_⟩
    · have hbytes := hw.bytes
      have hnew : (NodeTree.new : NodeTree M).gamebeginNode.held sz = sz.node := Tree.held_fresh
      rw [held] at hbytes ⊢
      rw [List.map_append, List.sum_append, List.map_singleton, List.sum_singleton, hnew]
      change w.heap.bytes + _ = _ + (w.heap.pending.map _).sum + w.candidates * _
      omega
    · rcases List.mem_append.mp hg with hg | hg
      · exact hw.headed g hg
      · exact List.mem_singleton.mp hg ▸ .new
  | destruct i =>
    refine hw.withGame fun g hg => ⟨_, rfl, ?_, fun x hx => hw.headed x (List.mem_of_mem_eraseIdx hx)⟩
    have hgiven : (w.heap.deleteLater (some g.gamebeginNode)).Balanced sz (w.others sz i) :=
      Heap.Balanced.deleteLater (hw.balanced hg)
    rw [Heap.Balanced, others] at hgiven
    rw [held]
    dsimp only
    omega
  | deallocate i =>
    refine hw.withGame fun g hg => ⟨_, rfl, setGame hw.headed hg ?_ .new⟩
    have hgiven : (w.heap.deleteLater (some g.gamebeginNode)).Balanced sz (w.others sz i) :=
      Heap.Balanced.deleteLater (hw.balanced hg)
    have hnew : (NodeTree.new : NodeTree M).gamebeginNode.held sz = sz.node := Tree.held_fresh
    exact (hgiven.add sz.node).congr (by rw [hnew])
  | reset i key moves =>
    refine hw.withGame fun g hg => ?_
    obtain ⟨h', hs, hb⟩ := NodeTree.balanced_reset key moves (hw.balanced hg)
    rw [hs]
    exact ⟨_, rfl, setGame hw.headed hg hb (hw.headed g (List.mem_of_getElem? hg)).reset⟩
  | evaluate i path =>
    refine hw.withNode fun g t hg ht => ⟨_, rfl, ?_⟩
    have htidy := (hw.headed g (List.mem_of_getElem? hg)).tidy.nodeAt ht
    split
    · rename_i hfresh
      refine hw.setNode_same hg ht (.node (fun _ => htidy.leaf ?_) fun c hc _ => htidy.child_node hc) ?_
      · rw [hfresh]
        exact fun e => nomatch e
      · rw [Tree.held_eq, Tree.held_eq, Tree.child]
    · exact hw
  | expand i path moves =>
    refine hw.withNode fun g t hg ht => ?_
    have htidy := (hw.headed g (List.mem_of_getElem? hg)).tidy.nodeAt ht
    dsimp only
    by_cases hexpanded : t.data.state = .expanded
    · rw [if_pos hexpanded]
      exact ⟨w, rfl, hw⟩
    -- the node has no children yet, whose nodes would have to go
    have hleaf := htidy.leaf hexpanded
    rw [if_neg hexpanded]
    by_cases hmoves : moves.isEmpty = true
    · rw [if_pos hmoves]
      refine ⟨_, rfl, hw.setNode_same hg ht (.node (fun _ => rfl) fun c hc => absurd hc List.not_mem_nil) ?_⟩
      rw [Tree.held_eq, Tree.held_eq (t := t), hleaf, Tree.child]
    · rw [if_neg hmoves, Tree.expandMemory, hleaf, Tree.destroyAll]
      refine ⟨_, rfl, hw.setNode (c := w.candidates) hg ht (.node (fun hs => absurd rfl hs) fun c hc s hs => ?_)
        fun k hb => ?_⟩
      · obtain ⟨m, -, rfl⟩ := List.mem_map.mp hc
        cases hs
      · have hnone : ∀ c ∈ moves.map Tree.newChild, c.2 = none := by
          intro c hc
          obtain ⟨m, -, rfl⟩ := List.mem_map.mp hc
          rfl
        refine (hb.add (moves.length * sz.child)).congr ?_
        rw [Tree.held_eq, Tree.held_eq, hleaf, Tree.expandNode, Tree.child, Tree.child,
          Tree.heldAll_of_none hnone, Tree.heldAll, List.length_map, List.length_nil]
        omega
  | record i path data =>
    refine hw.withNode fun g t hg ht => ⟨_, rfl, ?_⟩
    have htidy := (hw.headed g (List.mem_of_getElem? hg)).tidy.nodeAt ht
    refine hw.setNode_same hg ht (.node (fun hs => htidy.leaf hs) fun c hc _ => htidy.child_node hc) ?_
    rw [Tree.held_eq, Tree.held_eq, Tree.child]
  | recordChild i path k data =>
    refine hw.withNode fun g t hg ht => ⟨_, rfl, ?_⟩
    have htidy := (hw.headed g (List.mem_of_getElem? hg)).tidy.nodeAt ht
    refine hw.setNode_same hg ht (htidy.modify fun c hc s hs => htidy.child_node hc (c := c) hs) ?_
    cases hc : t.child[k]? with
    | none => rw [List.modify_eq_self (List.getElem?_eq_none_iff.mp hc), Tree.held_eq, Tree.held_eq, Tree.child]
    | some c => exact Nat.add_right_cancel (Tree.held_modify sz hc)
  | propose =>
    refine ⟨_, rfl, ?_, hw.headed⟩
    have hbytes := hw.bytes
    rw [held] at hbytes ⊢
    change w.heap.bytes + _ = (w.games.map _).sum + (w.heap.pending.map _).sum + (w.candidates + 1) * _
    rw [Nat.add_mul]
    omega
  | settle i path k =>
    refine hw.withNode fun g t hg ht => ?_
    have htidy := (hw.headed g (List.mem_of_getElem? hg)).tidy.nodeAt ht
    by_cases hzero : w.candidates = 0
    · rw [if_pos hzero]
      exact ⟨w, rfl, hw⟩
    have hone : w.candidates * sz.node = (w.candidates - 1) * sz.node + sz.node := by
      rw [← Nat.succ_mul, Nat.succ_eq_add_one, Nat.sub_add_cancel (Nat.pos_of_ne_zero hzero)]
    rw [if_neg hzero]
    by_cases hempty : (t.child[k]?).any (·.2.isNone) = true
    · -- the candidate is published
      rw [if_pos hempty]
      obtain ⟨c, hc⟩ : ∃ c, t.child[k]? = some c :=
        Option.isSome_iff_exists.mp (Option.isSome_of_any hempty)
      rw [hc] at hempty
      have hnone : c.2 = none := Option.isNone_iff_eq_none.mp hempty
      have hheld := Tree.held_modify sz (f := Tree.getOrCreate) hc
      have hnew : heldNode sz (Tree.getOrCreate c).2 = sz.node := by
        rw [Tree.getOrCreate, hnone]
        exact Tree.held_fresh
      have hold : heldNode sz c.2 = 0 := by
        rw [hnone]
        rfl
      refine ⟨_, rfl, hw.setNode hg ht (htidy.modify fun c hc s hs => ?_) fun k hb => hb.congr (by omega)⟩
      -- the node of a child is the one it had, or a new one
      cases hnode : c.2 with
      | none =>
        rw [Tree.getOrCreate, hnode] at hs
        exact Option.some.inj hs ▸ .fresh
      | some s' =>
        rw [Tree.getOrCreate, hnode] at hs
        exact Option.some.inj hs ▸ htidy.child_node hc hnode
    · -- it is thrown away
      rw [if_neg hempty]
      have hb := hw.balanced hg
      rw [others, hone] at hb
      have hnode : w.heap.Balanced sz (((w.games.eraseIdx i).map fun g => g.gamebeginNode.held sz).sum +
          (w.candidates - 1) * sz.node + g.gamebeginNode.held sz + sz.node) := hb.congr (by omega)
      obtain ⟨h', hs, hb'⟩ := hnode.sub
      rw [hs]
      refine ⟨_, rfl, ?_, hw.headed⟩
      have hsum := sum_eraseIdx_add (f := fun g : NodeTree M => g.gamebeginNode.held sz) hg
      rw [Heap.Balanced] at hb'
      rw [held]
      dsimp only
      omega
  | collect =>
    have hb : w.heap.Balanced sz ((w.games.map fun g => g.gamebeginNode.held sz).sum + w.candidates * sz.node) := by
      have hbytes := hw.bytes
      rw [held] at hbytes
      rw [Heap.Balanced]
      omega
    obtain ⟨h', hs, hb'⟩ := hb.collect
    have hstep : w.step sz .collect = some { w with heap := h' } := by
      change (w.heap.collect sz).map _ = _
      rw [hs]
      rfl
    refine ⟨_, hstep, ?_, hw.headed⟩
    rw [Heap.Balanced] at hb'
    rw [held]
    dsimp only
    omega

theorem run (hw : w.Sound sz) (events : List (Event M)) :
    ∃ w', events.foldlM (World.step sz) w = some w' ∧ w'.Sound sz := by
  induction events generalizing w with
  | nil => exact ⟨w, rfl, hw⟩
  | cons e events ih =>
    obtain ⟨w1, hs1, hw1⟩ := hw.step e
    obtain ⟨w2, hs2, hw2⟩ := ih hw1
    refine ⟨w2, ?_, hw2⟩
    rw [List.foldlM_cons, hs1]
    exact hs2

end Sound

/-! ## The collector at the end -/

/-- Every tree that waits has a node. -/
theorem pending_eq_nil (h0 : w.pendingNodes = 0) : w.heap.pending = [] := by
  rw [pendingNodes] at h0
  cases hpending : w.heap.pending with
  | nil => rfl
  | cons t rest =>
    rw [hpending, List.map_cons, List.sum_cons, Tree.held_eq] at h0
    dsimp only at h0
    omega

variable [DecidableEq M]

/-- What a step of the collector leaves. -/
theorem step_collect (hs : w.step sz .collect = some w') : w'.games = w.games ∧ w'.candidates = w.candidates ∧
    w'.pendingNodes = w.pendingNodes - 1 := by
  change (w.heap.collect sz).map _ = _ at hs
  obtain ⟨h', hs', rfl⟩ := Option.map_eq_some_iff.mp hs
  refine ⟨rfl, rfl, ?_⟩
  rw [Heap.collect] at hs'
  rw [pendingNodes, pendingNodes]
  cases hpending : w.heap.pending with
  | nil =>
    rw [hpending] at hs'
    cases hs'
    rw [hpending]
    rfl
  | cons t rest =>
    rw [hpending, List.head?_cons, Option.elim_some, List.tail_cons, Heap.sub] at hs'
    cases Option.some.inj (Option.ite_none_right_eq_some.mp hs').2
    have hroot : t.held ⟨1, 0⟩ = 1 + t.child.length * 0 + Tree.heldAll ⟨1, 0⟩ t.child := Tree.held_eq
    rw [List.map_append, List.sum_append, List.map_reverse, List.sum_reverse, Tree.heldAll_filterMap, List.map_cons,
      List.sum_cons]
    omega

/-- The collector destroys what waits, a node at a time. -/
theorem drained (hw : w.Sound sz) (hgames : w.games = []) (hcandidates : w.candidates = 0) :
    ∃ w', (List.replicate w.pendingNodes .collect).foldlM (World.step sz) w = some w' ∧ w'.heap.bytes = 0 := by
  obtain ⟨n, hn⟩ : ∃ n, w.pendingNodes = n := ⟨_, rfl⟩
  rw [hn]
  induction n generalizing w with
  | zero =>
    refine ⟨w, rfl, ?_⟩
    rw [hw.bytes, held, hgames, hcandidates, pending_eq_nil hn, Nat.zero_mul]
    rfl
  | succ n ih =>
    obtain ⟨w1, hs1, hw1⟩ := hw.step .collect
    obtain ⟨hg1, hc1, hp1⟩ := step_collect hs1
    obtain ⟨w2, hs2, hb2⟩ := ih hw1 (hg1.trans hgames) (hc1.trans hcandidates) (by omega)
    refine ⟨w2, ?_, hb2⟩
    rw [List.replicate_succ, List.foldlM_cons, hs1]
    exact hs2

/-- After any events the counter is what the live nodes take up, and no step would have made it wrap. Once
all trees are destroyed the collector brings it to zero. -/
theorem bytes_of_run (sz : Sizes) (events : List (Event M)) :
    ∃ w, events.foldlM (World.step sz) start = some w ∧ w.heap.bytes = w.held sz ∧
      (w.games = [] → w.candidates = 0 →
        ∃ w', (List.replicate w.pendingNodes .collect).foldlM (World.step sz) w = some w' ∧
          w'.heap.bytes = 0) := by
  obtain ⟨w, hs, hw⟩ := (sound_start sz).run events
  exact ⟨w, hs, hw.bytes, drained hw⟩

end World

end Sound

end Shogi.Mcts
