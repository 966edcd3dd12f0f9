import ShogiEngine.Mcts.UctSearch

/-!
# Publication of nodes

How the state of a node, its mutex and the flag `kExpanded` keep threads from seeing a half-built node.

## Main definitions

- `TreeOk`, `Sound`: what holds of the memory between any two steps
- `Pc.Knows`, `Pc.locked`: what a thread may rely on, and the mutex that it holds
- `Grows`, `Frame`: what a step of another thread leaves alone

## Main results

- `Act.frame`: a step does not touch what other threads rely on
- `Act.keeps`: a step keeps the invariants
- `known_of_grown`: they hold in every search
-/

namespace Shogi.Mcts

variable {ι P M S : Type} {R : Rules P M} {ops : PuctOps S} {root : Addr} {i j : ι}
  {m m' : Memory ι P M} {pc pc' : Pc P S}

/-! ## The invariants -/

/-- A node with its children: the legal moves, or none where a first visit found no move. -/
def Built (R : Rules P M) (m : Memory ι P M) (a : Addr) : Prop :=
  (m.childNum a = (R.generateLegalMoves (m.pos a)).length ∧
    ∀ k, k < m.childNum a → m.childMove (a, k) = (R.generateLegalMoves (m.pos a))[k]?) ∨
  (m.childNum a = 0 ∧ R.noMove (m.pos a) = true)

/-- The nodes and edges between two steps. -/
structure TreeOk (R : Rules P M) (m : Memory ι P M) : Prop where
  above : ∀ a, m.next ≤ a → m.state a = .fresh
  built : ∀ a, m.state a = .expanded → Built R m a
  blank : ∀ e : Edge, m.state e.1 ≠ .expanded → m.childNode e = none ∧ m.childFlags e = fun _ => false
  child : ∀ e b, m.childNode e = some b → e.1 < b ∧ b < m.next ∧ e.2 < m.childNum e.1 ∧
    ∃ mv, m.childMove e = some mv ∧ m.pos b = R.doMove (m.pos e.1) mv

/-- The memory during a search. -/
structure Sound (R : Rules P M) (root : Addr) (m : Memory ι P M) : Prop extends TreeOk R m where
  root_lt : root < m.next
  root_expanded : m.state root = .expanded

/-- Edges of published nodes. -/
def PathOk (m : Memory ι P M) (path : List Edge) : Prop :=
  ∀ e ∈ path, m.state e.1 = .expanded ∧ e.2 < m.childNum e.1

/-- A visit below the root: the board is the one of the node, and the last edge leads to the node. -/
structure VisitOk (root : Addr) (m : Memory ι P M) (v : Visit P) : Prop where
  lt : v.node < m.next
  board : v.board = m.pos v.node
  root_le : root ≤ v.node
  atRoot : v.path = [] → v.node = root
  parent : ∀ e rest, v.path = e :: rest → m.childNode e = some v.node ∧ root < v.node
  path : PathOk m v.path

/-- What a thread relies on. -/
def Pc.Knows (R : Rules P M) (root : Addr) (m : Memory ι P M) : Pc P S → Prop
  | .idle | .joined | .report | .checkNode _ => True
  | .proven v _ | .adjudicate v | .resolve v _ _ | .checkEvaled v | .lockEval v
  | .recheckEvaled v => VisitOk root m v
  | .firstVisit v | .evaluateLeaf v | .setEvaled v _ => VisitOk root m v ∧ m.state v.node = .fresh
  | .noMoves v => VisitOk root m v ∧ m.state v.node = .fresh ∧ R.noMove v.board = true
  | .publishNoMoves v => VisitOk root m v ∧ m.state v.node = .fresh ∧ R.noMove v.board = true ∧
      m.childNum v.node = 0
  | .unlock v .expand | .checkExpanded v | .lockExpand v | .recheckExpanded v =>
      VisitOk root m v ∧ m.state v.node ≠ .fresh
  | .unlock v .children | .readChildNum v => VisitOk root m v ∧ m.state v.node = .expanded
  | .loadSum v | .loadSumWin v _ | .loadVisited v _ _ =>
      VisitOk root m v ∧ m.state v.node = .expanded ∧ 0 < m.childNum v.node
  | .unlock v (.backup _) => VisitOk root m v
  | .expandNode v => VisitOk root m v ∧ m.state v.node = .evaluated
  | .newArray v => VisitOk root m v ∧ m.state v.node = .evaluated ∧
      m.childNum v.node = (R.generateLegalMoves v.board).length
  | .writeMove v k => VisitOk root m v ∧ m.state v.node = .evaluated ∧
      m.childNum v.node = (R.generateLegalMoves v.board).length ∧
      ∀ l, l < k → m.childMove (v.node, l) = (R.generateLegalMoves v.board)[l]?
  | .writePrior v _ | .clearVisited v | .setExpanded v =>
      VisitOk root m v ∧ m.state v.node = .evaluated ∧ Built R m v.node
  | .scan v _ s => VisitOk root m v ∧ m.state v.node = .expanded ∧ s.best < m.childNum v.node
  | .scanWin v k s | .scanDraw v k s | .scanCount v k s | .scanChildWin v k s _ =>
      VisitOk root m v ∧ m.state v.node = .expanded ∧ s.best < m.childNum v.node ∧
        k < m.childNum v.node
  | .setParent v _ k | .addVisited v k | .addNode v k | .addEdge v k | .getChild v k
  | .createChild v k =>
      VisitOk root m v ∧ m.state v.node = .expanded ∧ k < m.childNum v.node
  | .descend v k b => VisitOk root m v ∧ m.state v.node = .expanded ∧ k < m.childNum v.node ∧
      m.childNode (v.node, k) = some b
  | .backup path _ => PathOk m path
  | .validate p todo | .updateNode p todo _ => PathOk m p.path ∧ PathOk m todo
  | .updateEdge p e todo _ => PathOk m p.path ∧ PathOk m (e :: todo)
  | .unwindNode todo | .butterfly todo => PathOk m todo
  | .unwindEdge e todo => PathOk m (e :: todo)
  | .readNode a => m.state a = .expanded

/-- The board whose mutex the thread holds. -/
def Pc.locked : Pc P S → Option P
  | .resolve v _ true | .recheckEvaled v | .firstVisit v | .noMoves v | .publishNoMoves v
  | .evaluateLeaf v | .setEvaled v _ | .unlock v _ | .recheckExpanded v | .expandNode v
  | .newArray v | .writeMove v _ | .writePrior v _ | .clearVisited v | .setExpanded v =>
      some v.board
  | _ => none

/-- The thread holds the mutex that it has locked, and what it relies on is true. -/
def Known (R : Rules P M) (root : Addr) (i : ι) (m : Memory ι P M) (pc : Pc P S) : Prop :=
  pc.Knows R root m ∧ ∀ p, pc.locked = some p → m.mutex (R.mutexIndex p) = some i

/-- What no step undoes. -/
structure Grows (m m' : Memory ι P M) : Prop where
  next_le : m.next ≤ m'.next
  pos_eq : ∀ a, a < m.next → m'.pos a = m.pos a
  notFresh : ∀ a, m.state a ≠ .fresh → m'.state a ≠ .fresh
  expanded : ∀ a, m.state a = .expanded → m'.state a = .expanded ∧
    m'.childNum a = m.childNum a ∧ m'.arrays a = m.arrays a ∧
    ∀ k, m'.childMove (a, k) = m.childMove (a, k) ∧ m'.childNnrate (a, k) = m.childNnrate (a, k)
  child : ∀ e b, m.childNode e = some b → m'.childNode e = some b

/-- What a step of another thread does not touch while `j` holds a mutex. -/
structure Frame (R : Rules P M) (j : ι) (m m' : Memory ι P M) : Prop where
  mutex : ∀ n, m.mutex n = some j → m'.mutex n = some j
  node : ∀ a, a < m.next → m.mutex (R.mutexIndex (m.pos a)) = some j →
    m'.state a = m.state a ∧ m'.childNum a = m.childNum a ∧
      ∀ k, m'.childMove (a, k) = m.childMove (a, k)

/-! ## Steps of other threads -/

theorem PathOk.grow {path : List Edge} (hg : Grows m m') (h : PathOk m path) : PathOk m' path := by
  intro e he
  obtain ⟨hexp, hlt⟩ := h e he
  obtain ⟨hexp', hnum, -⟩ := hg.expanded e.1 hexp
  exact ⟨hexp', hnum ▸ hlt⟩

theorem VisitOk.grow {v : Visit P} (hg : Grows m m') (h : VisitOk root m v) :
    VisitOk root m' v where
  lt := h.lt.trans_le hg.next_le
  board := h.board.trans (hg.pos_eq _ h.lt).symm
  root_le := h.root_le
  atRoot := h.atRoot
  parent e rest he := ⟨hg.child _ _ (h.parent e rest he).1, (h.parent e rest he).2⟩
  path := h.path.grow hg

theorem Built.congr {a : Addr} (hpos : m'.pos a = m.pos a) (hnum : m'.childNum a = m.childNum a)
    (hmove : ∀ k, m'.childMove (a, k) = m.childMove (a, k)) (h : Built R m a) : Built R m' a := by
  unfold Built at h ⊢
  rw [hpos, hnum]
  obtain ⟨hlen, hmoves⟩ | hnone := h
  · exact Or.inl ⟨hlen, fun k hk => (hmove k).trans (hmoves k hk)⟩
  · exact Or.inr hnone

theorem VisitOk.held {v : Visit P} (hf : Frame R j m m') (h : VisitOk root m v)
    (hlock : m.mutex (R.mutexIndex v.board) = some j) :
    m'.state v.node = m.state v.node ∧ m'.childNum v.node = m.childNum v.node ∧
      ∀ k, m'.childMove (v.node, k) = m.childMove (v.node, k) :=
  hf.node _ h.lt (h.board ▸ hlock)

/-- What a thread relies on stays true. -/
theorem Pc.Knows.mono (hg : Grows m m') (hf : Frame R j m m')
    (hlock : ∀ p, pc.locked = some p → m.mutex (R.mutexIndex p) = some j)
    (h : pc.Knows R root m) : pc.Knows R root m' := by
  cases pc
  case idle | joined | report | checkNode => trivial
  case proven | adjudicate | resolve | checkEvaled | lockEval | recheckEvaled => exact h.grow hg
  case firstVisit v | evaluateLeaf v | setEvaled v _ =>
    obtain ⟨hv, hs⟩ := h
    exact ⟨hv.grow hg, (hv.held hf (hlock _ rfl)).1.trans hs⟩
  case noMoves v =>
    obtain ⟨hv, hs, hno⟩ := h
    exact ⟨hv.grow hg, (hv.held hf (hlock _ rfl)).1.trans hs, hno⟩
  case publishNoMoves v =>
    obtain ⟨hv, hs, hno, hnum⟩ := h
    obtain ⟨hs', hnum', -⟩ := hv.held hf (hlock _ rfl)
    exact ⟨hv.grow hg, hs'.trans hs, hno, hnum'.trans hnum⟩
  case unlock v next =>
    cases next
    case expand => exact ⟨h.1.grow hg, hg.notFresh _ h.2⟩
    case children => exact ⟨h.1.grow hg, (hg.expanded _ h.2).1⟩
    case backup => exact h.grow hg
  case checkExpanded | lockExpand | recheckExpanded =>
    exact ⟨h.1.grow hg, hg.notFresh _ h.2⟩
  case readChildNum => exact ⟨h.1.grow hg, (hg.expanded _ h.2).1⟩
  case loadSum v | loadSumWin v _ | loadVisited v _ _ =>
    obtain ⟨hv, hs, hpos⟩ := h
    obtain ⟨hs', hnum', -⟩ := hg.expanded _ hs
    exact ⟨hv.grow hg, hs', hnum' ▸ hpos⟩
  case expandNode v =>
    obtain ⟨hv, hs⟩ := h
    exact ⟨hv.grow hg, (hv.held hf (hlock _ rfl)).1.trans hs⟩
  case newArray v =>
    obtain ⟨hv, hs, hnum⟩ := h
    obtain ⟨hs', hnum', -⟩ := hv.held hf (hlock _ rfl)
    exact ⟨hv.grow hg, hs'.trans hs, hnum'.trans hnum⟩
  case writeMove v k =>
    obtain ⟨hv, hs, hnum, hmoves⟩ := h
    obtain ⟨hs', hnum', hmoves'⟩ := hv.held hf (hlock _ rfl)
    exact ⟨hv.grow hg, hs'.trans hs, hnum'.trans hnum, fun l hl => (hmoves' l).trans (hmoves l hl)⟩
  case writePrior v _ | clearVisited v | setExpanded v =>
    obtain ⟨hv, hs, hbuilt⟩ := h
    obtain ⟨hs', hnum', hmoves'⟩ := hv.held hf (hlock _ rfl)
    exact ⟨hv.grow hg, hs'.trans hs, hbuilt.congr (hg.pos_eq _ hv.lt) hnum' hmoves'⟩
  case scan v _ _ =>
    obtain ⟨hv, hs, hbest⟩ := h
    obtain ⟨hs', hnum', -⟩ := hg.expanded _ hs
    exact ⟨hv.grow hg, hs', hnum' ▸ hbest⟩
  case scanWin v k _ | scanDraw v k _ | scanCount v k _ | scanChildWin v k _ _ =>
    obtain ⟨hv, hs, hbest, hk⟩ := h
    obtain ⟨hs', hnum', -⟩ := hg.expanded _ hs
    exact ⟨hv.grow hg, hs', hnum' ▸ hbest, hnum' ▸ hk⟩
  case setParent v _ k | addVisited v k | addNode v k | addEdge v k | getChild v k |
      createChild v k =>
    obtain ⟨hv, hs, hk⟩ := h
    obtain ⟨hs', hnum', -⟩ := hg.expanded _ hs
    exact ⟨hv.grow hg, hs', hnum' ▸ hk⟩
  case descend v k b =>
    obtain ⟨hv, hs, hk, hb⟩ := h
    obtain ⟨hs', hnum', -⟩ := hg.expanded _ hs
    exact ⟨hv.grow hg, hs', hnum' ▸ hk, hg.child _ _ hb⟩
  case backup | unwindNode | butterfly | unwindEdge => exact h.grow hg
  case validate | updateNode | updateEdge => exact ⟨h.1.grow hg, h.2.grow hg⟩
  case readNode => exact (hg.expanded _ h).1

theorem Known.mono (hg : Grows m m') (hf : Frame R j m m') (h : Known R root j m pc) :
    Known R root j m' pc :=
  ⟨h.1.mono hg hf h.2, fun p hp => hf.mutex _ (h.2 p hp)⟩

/-! ## Steps that leave the tree as it is -/

/-- The same nodes, children and mutexes: only sums, counts and flags may differ. -/
structure SameTree (m m' : Memory ι P M) : Prop where
  state : m'.state = m.state
  childNum : m'.childNum = m.childNum
  childMove : m'.childMove = m.childMove
  childNode : m'.childNode = m.childNode
  childNnrate : m'.childNnrate = m.childNnrate
  mutex : m'.mutex = m.mutex
  next : m'.next = m.next
  pos : m'.pos = m.pos
  arrays : m'.arrays = m.arrays

theorem SameTree.grows (h : SameTree m m') : Grows m m' where
  next_le := h.next.ge
  pos_eq a _ := congrFun h.pos a
  notFresh a ha := by rwa [h.state]
  expanded a ha := by
    rw [h.state, h.childNum, h.childMove, h.childNnrate, h.arrays]
    exact ⟨ha, rfl, rfl, fun k => ⟨rfl, rfl⟩⟩
  child e b hb := by rwa [h.childNode]

theorem SameTree.frame (h : SameTree m m') : Frame R j m m' where
  mutex n hn := by rwa [h.mutex]
  node a _ _ := by
    rw [h.state, h.childNum, h.childMove]
    exact ⟨rfl, rfl, fun k => rfl⟩

theorem SameTree.refl (m : Memory ι P M) : SameTree m m :=
  ⟨rfl, rfl, rfl, rfl, rfl, rfl, rfl, rfl, rfl⟩

theorem SameTree.setParentFlag (m : Memory ι P M) (path : List Edge) (o : Outcome) :
    SameTree m (m.setParentFlag path o) := by
  cases path with
  | nil => exact .refl m
  | cons e rest => exact ⟨rfl, rfl, rfl, rfl, rfl, rfl, rfl, rfl, rfl⟩

/-- A sound memory stays sound when at most flags of published edges change. -/
theorem Sound.sameTree (hs : SameTree m m')
    (hflags : ∀ e : Edge, m.state e.1 ≠ .expanded → m'.childFlags e = m.childFlags e)
    (h : Sound R root m) : Sound R root m' where
  root_lt := by rw [hs.next]; exact h.root_lt
  root_expanded := by rw [hs.state]; exact h.root_expanded
  above a ha := by rw [hs.state]; rw [hs.next] at ha; exact h.above a ha
  built a ha := by
    rw [hs.state] at ha
    exact (h.built a ha).congr (congrFun hs.pos a) (congrFun hs.childNum a) fun k =>
      congrFun hs.childMove (a, k)
  blank e he := by
    rw [hs.state] at he
    rw [hs.childNode, hflags e he]
    exact h.blank e he
  child e b hb := by
    rw [hs.childNode] at hb
    rw [hs.next, hs.childNum, hs.childMove, hs.pos]
    exact h.child e b hb

/-! ## Steps at one unpublished node -/

/-- Nothing differs but at node `a`. -/
structure OnlyAt (a : Addr) (m m' : Memory ι P M) : Prop where
  mutex : m'.mutex = m.mutex
  next : m'.next = m.next
  pos : m'.pos = m.pos
  node : ∀ b, b ≠ a → m'.state b = m.state b ∧ m'.childNum b = m.childNum b ∧
    m'.arrays b = m.arrays b
  edge : ∀ e : Edge, e.1 ≠ a → m'.childMove e = m.childMove e ∧ m'.childNode e = m.childNode e ∧
    m'.childFlags e = m.childFlags e ∧ m'.childNnrate e = m.childNnrate e

section OnlyAt

variable {a : Addr}

theorem OnlyAt.grows (h : OnlyAt a m m') (ha : m.state a ≠ .expanded)
    (hfresh : m.state a ≠ .fresh → m'.state a ≠ .fresh) (hnone : ∀ k, m.childNode (a, k) = none) :
    Grows m m' where
  next_le := h.next.ge
  pos_eq b _ := congrFun h.pos b
  notFresh b hb := by
    by_cases hba : b = a
    · subst hba
      exact hfresh hb
    · rwa [(h.node b hba).1]
  expanded b hb := by
    have hba : b ≠ a := fun hba => ha (hba ▸ hb)
    obtain ⟨hstate, hnum, harrays⟩ := h.node b hba
    refine ⟨hstate.trans hb, hnum, harrays, fun k => ?_⟩
    obtain ⟨hmove, -, -, hprior⟩ := h.edge (b, k) hba
    exact ⟨hmove, hprior⟩
  child e b hb := by
    have hea : e.1 ≠ a := by
      intro hea
      have hnone' := hnone e.2
      rw [← hea, hb] at hnone'
      cases hnone'
    rw [(h.edge e hea).2.1, hb]

theorem OnlyAt.frame (h : OnlyAt a m m') (hlock : m.mutex (R.mutexIndex (m.pos a)) = some i)
    (hij : j ≠ i) : Frame R j m m' where
  mutex n hn := by rwa [h.mutex]
  node b _ hb := by
    have hba : b ≠ a := by
      intro hba
      rw [hba, hlock] at hb
      exact hij (Option.some.inj hb).symm
    obtain ⟨hstate, hnum, -⟩ := h.node b hba
    exact ⟨hstate, hnum, fun k => (h.edge (b, k) hba).1⟩

theorem TreeOk.onlyAt (h : TreeOk R m) (ho : OnlyAt a m m') (ha : m.state a ≠ .expanded)
    (hlt : a < m.next) (hbuilt : m'.state a = .expanded → Built R m' a)
    (hblank : ∀ k, m'.childNode (a, k) = none ∧ m'.childFlags (a, k) = fun _ => false) :
    TreeOk R m' where
  above b hb := by
    rw [ho.next] at hb
    have hba : b ≠ a := (hlt.trans_le hb).ne'
    rw [(ho.node b hba).1, h.above b hb]
  built b hb := by
    by_cases hba : b = a
    · subst hba
      exact hbuilt hb
    · obtain ⟨hstate, hnum, -⟩ := ho.node b hba
      rw [hstate] at hb
      exact (h.built b hb).congr (congrFun ho.pos b) hnum fun k => (ho.edge (b, k) hba).1
  blank e he := by
    by_cases hea : e.1 = a
    · obtain ⟨b, k⟩ := e
      subst hea
      exact hblank k
    · obtain ⟨-, hnode, hflags, -⟩ := ho.edge e hea
      rw [(ho.node _ hea).1] at he
      rw [hnode, hflags]
      exact h.blank e he
  child e b hb := by
    by_cases hea : e.1 = a
    · obtain ⟨c, k⟩ := e
      subst hea
      rw [(hblank k).1] at hb
      cases hb
    · obtain ⟨hmove, hnode, -, -⟩ := ho.edge e hea
      rw [hnode] at hb
      rw [ho.next, (ho.node _ hea).2.1, hmove, ho.pos]
      exact h.child e b hb

theorem Sound.onlyAt (h : Sound R root m) (ho : OnlyAt a m m') (ha : m.state a ≠ .expanded)
    (hlt : a < m.next) (hbuilt : m'.state a = .expanded → Built R m' a)
    (hblank : ∀ k, m'.childNode (a, k) = none ∧ m'.childFlags (a, k) = fun _ => false) :
    Sound R root m' where
  toTreeOk := h.toTreeOk.onlyAt ho ha hlt hbuilt hblank
  root_lt := by rw [ho.next]; exact h.root_lt
  root_expanded := by
    have hroot : root ≠ a := fun hra => ha (hra ▸ h.root_expanded)
    rw [(ho.node root hroot).1, h.root_expanded]

theorem OnlyAt.setState (s : NodeState) : OnlyAt a m (m.setState a s) :=
  ⟨rfl, rfl, rfl, fun _ hb => ⟨Function.update_of_ne hb .., rfl, rfl⟩, fun _ _ => ⟨rfl, rfl, rfl, rfl⟩⟩

theorem OnlyAt.setChildNum (n : Nat) : OnlyAt a m (m.setChildNum a n) :=
  ⟨rfl, rfl, rfl, fun _ hb => ⟨rfl, Function.update_of_ne hb .., rfl⟩, fun _ _ => ⟨rfl, rfl, rfl, rfl⟩⟩

theorem OnlyAt.newArray : OnlyAt a m (m.newArray a) :=
  ⟨rfl, rfl, rfl, fun _ hb => ⟨rfl, rfl, Function.update_of_ne hb ..⟩,
    fun _ he => ⟨if_neg he, if_neg he, if_neg he, if_neg he⟩⟩

theorem OnlyAt.setChildMove (k : Nat) (x : Option M) : OnlyAt a m (m.setChildMove (a, k) x) :=
  ⟨rfl, rfl, rfl, fun _ _ => ⟨rfl, rfl, rfl⟩, fun _ he =>
    ⟨Function.update_of_ne (fun h => he (congrArg Prod.fst h)) .., rfl, rfl, rfl⟩⟩

theorem OnlyAt.setChildNnrate (k : Nat) (x : Num) : OnlyAt a m (m.setChildNnrate (a, k) x) :=
  ⟨rfl, rfl, rfl, fun _ _ => ⟨rfl, rfl, rfl⟩, fun _ he =>
    ⟨rfl, rfl, rfl, Function.update_of_ne (fun h => he (congrArg Prod.fst h)) ..⟩⟩

theorem OnlyAt.setChildren {moves : List M} : OnlyAt a m (m.setChildren a moves) :=
  ⟨rfl, rfl, rfl, fun _ hb => ⟨Function.update_of_ne hb .., Function.update_of_ne hb ..,
    Function.update_of_ne hb ..⟩, fun _ he => ⟨if_neg he, if_neg he, if_neg he, if_neg he⟩⟩

end OnlyAt

/-! ## Mutexes and new nodes -/

section Mutex

variable {n : Nat} {o : Option ι}

theorem Grows.setMutex : Grows m (m.setMutex n o) :=
  ⟨le_rfl, fun _ _ => rfl, fun _ h => h, fun _ h => ⟨h, rfl, rfl, fun _ => ⟨rfl, rfl⟩⟩, fun _ _ h => h⟩

/-- A free mutex is locked, or the own one unlocked. -/
theorem Frame.setMutex (hn : m.mutex n ≠ some j) : Frame R j m (m.setMutex n o) where
  mutex k hk := by
    have hkn : k ≠ n := fun h => hn (h ▸ hk)
    exact (Function.update_of_ne hkn ..).trans hk
  node _ _ _ := ⟨rfl, rfl, fun _ => rfl⟩

theorem Sound.setMutex (h : Sound R root m) : Sound R root (m.setMutex n o) :=
  ⟨⟨h.above, h.built, h.blank, h.child⟩, h.root_lt, h.root_expanded⟩

end Mutex

section PublishChild

variable {e : Edge} {p : P}

theorem Grows.publishChild (hnone : m.childNode e = none) : Grows m (m.publishChild e p) where
  next_le := Nat.le_succ _
  pos_eq a ha := Memory.pos_publishChild_of_lt ha
  notFresh _ h := h
  expanded _ h := ⟨h, rfl, rfl, fun _ => ⟨rfl, rfl⟩⟩
  child e' b hb := by
    have hne : e' ≠ e := by
      rintro rfl
      rw [hnone] at hb
      cases hb
    rw [Memory.childNode_publishChild_of_ne hne, hb]

theorem Frame.publishChild : Frame R j m (m.publishChild e p) :=
  ⟨fun _ h => h, fun _ _ _ => ⟨rfl, rfl, fun _ => rfl⟩⟩

theorem TreeOk.lt_of_expanded (h : TreeOk R m) {a : Addr} (ha : m.state a = .expanded) :
    a < m.next := by
  by_contra hge
  rw [h.above a (not_lt.mp hge)] at ha
  cases ha

theorem TreeOk.publishChild (h : TreeOk R m) {mv : M} (hexp : m.state e.1 = .expanded)
    (hlt : e.2 < m.childNum e.1) (hmove : m.childMove e = some mv)
    (hp : p = R.doMove (m.pos e.1) mv) : TreeOk R (m.publishChild e p) where
  above a ha := h.above a (Nat.le_of_succ_le ha)
  built a ha := (h.built a ha).congr (Memory.pos_publishChild_of_lt (h.lt_of_expanded ha)) rfl
    fun _ => rfl
  blank e' he' := by
    have hne : e' ≠ e := by
      rintro rfl
      exact he' hexp
    rw [Memory.childNode_publishChild_of_ne hne]
    exact h.blank e' he'
  child e' b hb := by
    by_cases hne : e' = e
    · subst hne
      rw [Memory.childNode_publishChild_self, Option.some.injEq] at hb
      subst hb
      have hsource := h.lt_of_expanded hexp
      refine ⟨hsource, Nat.lt_succ_self _, hlt, mv, hmove, ?_⟩
      rw [Memory.pos_publishChild_self, Memory.pos_publishChild_of_lt hsource, hp]
    · rw [Memory.childNode_publishChild_of_ne hne] at hb
      obtain ⟨h1, h2, h3, mv', h4, h5⟩ := h.child e' b hb
      refine ⟨h1, h2.trans (Nat.lt_succ_self _), h3, mv', h4, ?_⟩
      rw [Memory.pos_publishChild_of_lt h2, Memory.pos_publishChild_of_lt (h1.trans h2), h5]

end PublishChild

/-! ## What a step can do -/

/-- Thread `i` may change its unpublished node `a`. -/
structure Owns (R : Rules P M) (i : ι) (m : Memory ι P M) (a : Addr) : Prop where
  lt : a < m.next
  state : m.state a ≠ .expanded
  mutex : m.mutex (R.mutexIndex (m.pos a)) = some i

theorem VisitOk.owns {v : Visit P} (h : VisitOk root m v) (hstate : m.state v.node ≠ .expanded)
    (hlock : m.mutex (R.mutexIndex v.board) = some i) : Owns R i m v.node :=
  ⟨h.lt, hstate, h.board ▸ hlock⟩

/-- A step leaves the tree as it is, or changes one node under its mutex, or locks or unlocks a mutex, or
hangs a new node into an empty place. -/
theorem Act.kinds (h : Act R ops root i m pc m' pc') (hk : Known R root i m pc) :
    SameTree m m' ∨
    (∃ a, Owns R i m a ∧ OnlyAt a m m' ∧ (m.state a ≠ .fresh → m'.state a ≠ .fresh)) ∨
    (∃ n o, m' = m.setMutex n o ∧ (m.mutex n = none ∨ m.mutex n = some i)) ∨
    ∃ e p, m' = m.publishChild e p ∧ m.childNode e = none := by
  obtain ⟨hknows, hlock⟩ := hk
  cases h
  case resolve v o locked => exact Or.inl (.setParentFlag ..)
  case setParent v o k => exact Or.inl (.setParentFlag ..)
  case lockEval v free => exact Or.inr (Or.inr (Or.inl ⟨_, _, rfl, Or.inl free⟩))
  case lockExpand v free => exact Or.inr (Or.inr (Or.inl ⟨_, _, rfl, Or.inl free⟩))
  case unlock v next => exact Or.inr (Or.inr (Or.inl ⟨_, _, rfl, Or.inr (hlock _ rfl)⟩))
  case createChild v k empty => exact Or.inr (Or.inr (Or.inr ⟨_, _, rfl, empty⟩))
  case noMoves v =>
    obtain ⟨hv, hs, -⟩ := hknows
    exact Or.inr (Or.inl ⟨_, hv.owns (by rw [hs]; decide) (hlock _ rfl), .setChildNum _, fun h => h⟩)
  case publishNoMoves v =>
    obtain ⟨hv, hs, -⟩ := hknows
    refine Or.inr (Or.inl ⟨_, hv.owns (by rw [hs]; decide) (hlock _ rfl), .setState _, fun _ => ?_⟩)
    rw [Memory.state_setState_self]
    decide
  case setEvaled v valueWin =>
    obtain ⟨hv, hs⟩ := hknows
    refine Or.inr (Or.inl ⟨_, hv.owns (by rw [hs]; decide) (hlock _ rfl), .setState _, fun _ => ?_⟩)
    rw [Memory.state_setState_self]
    decide
  case expandNode v =>
    obtain ⟨hv, hs⟩ := hknows
    exact Or.inr (Or.inl ⟨_, hv.owns (by rw [hs]; decide) (hlock _ rfl), .setChildNum _, fun h => h⟩)
  case newArray v =>
    obtain ⟨hv, hs, -⟩ := hknows
    exact Or.inr (Or.inl ⟨_, hv.owns (by rw [hs]; decide) (hlock _ rfl), .newArray, fun h => h⟩)
  case writeMove v k =>
    obtain ⟨hv, hs, -⟩ := hknows
    exact Or.inr (Or.inl ⟨_, hv.owns (by rw [hs]; decide) (hlock _ rfl), .setChildMove .., fun h => h⟩)
  case writePrior v k x =>
    obtain ⟨hv, hs, -⟩ := hknows
    exact Or.inr (Or.inl ⟨_, hv.owns (by rw [hs]; decide) (hlock _ rfl), .setChildNnrate ..,
      fun h => h⟩)
  case setExpanded v =>
    obtain ⟨hv, hs, -⟩ := hknows
    refine Or.inr (Or.inl ⟨_, hv.owns (by rw [hs]; decide) (hlock _ rfl), .setState _, fun _ => ?_⟩)
    rw [Memory.state_setState_self]
    decide
  all_goals exact Or.inl ⟨rfl, rfl, rfl, rfl, rfl, rfl, rfl, rfl, rfl⟩

/-- A step undoes nothing, and does not touch what another thread relies on. -/
theorem Act.frame (h : Act R ops root i m pc m' pc') (hs : Sound R root m)
    (hk : Known R root i m pc) : Grows m m' ∧ ∀ j, j ≠ i → Frame R j m m' := by
  obtain hsame | ⟨a, howns, honly, hfresh⟩ | ⟨n, o, rfl, hmutex⟩ | ⟨e, p, rfl, hnone⟩ := h.kinds hk
  · exact ⟨hsame.grows, fun j _ => hsame.frame⟩
  · exact ⟨honly.grows howns.state hfresh fun k => (hs.blank (a, k) howns.state).1,
      fun j hj => honly.frame howns.mutex hj⟩
  · refine ⟨.setMutex, fun j hj => .setMutex fun hn => ?_⟩
    obtain hfree | hown := hmutex
    · rw [hfree] at hn
      cases hn
    · rw [hown, Option.some.injEq] at hn
      exact hj hn.symm
  · exact ⟨.publishChild hnone, fun j _ => .publishChild⟩

/-! ## One step of a search -/

section Path

variable {v : Visit P} {e : Edge} {path todo : List Edge}

theorem PathOk.tail (h : PathOk m (e :: todo)) : PathOk m todo := fun x hx =>
  h x (List.mem_cons_of_mem _ hx)

/-- The start of a playout. -/
theorem VisitOk.atStart (hs : Sound R root m) : VisitOk root m ⟨m.pos root, root, []⟩ where
  lt := hs.root_lt
  board := rfl
  root_le := le_rfl
  atRoot _ := rfl
  parent _ _ h := by cases h
  path _ h := absurd h List.not_mem_nil

/-- One move down. -/
theorem VisitOk.down (hs : Sound R root m) {k : Nat} {b : Addr} {mv : M} (hv : VisitOk root m v)
    (hexp : m.state v.node = .expanded) (hk : k < m.childNum v.node)
    (hb : m.childNode (v.node, k) = some b) (hmove : m.childMove (v.node, k) = some mv) :
    VisitOk root m ⟨R.doMove v.board mv, b, (v.node, k) :: v.path⟩ := by
  obtain ⟨hlt, hnext, -, mv', hmv', hpos⟩ := hs.child _ _ hb
  rw [hmove, Option.some.injEq] at hmv'
  subst hmv'
  refine ⟨hnext, ?_, hv.root_le.trans hlt.le, fun h => (by cases h), fun e rest he => ?_, ?_⟩
  · rw [hv.board, hpos]
  · rw [List.cons.injEq] at he
    rw [← he.1]
    exact ⟨hb, hv.root_le.trans_lt hlt⟩
  · intro e he
    rw [List.mem_cons] at he
    obtain rfl | he := he
    · exact ⟨hexp, hk⟩
    · exact hv.path e he

theorem Pc.Knows.enter (hv : VisitOk root m v) : (Pc.enter v : Pc P S).Knows R root m := by
  unfold Pc.enter
  split_ifs
  · exact hv
  · exact hv

theorem Pc.locked_enter : (Pc.enter v : Pc P S).locked = none := by
  unfold Pc.enter
  split_ifs <;> rfl

theorem Pc.Knows.afterProven {o : Outcome} (hv : VisitOk root m v) :
    (Pc.afterProven v o : Pc P S).Knows R root m := by
  cases o <;> exact hv

theorem Pc.locked_afterProven {o : Outcome} : (Pc.afterProven v o : Pc P S).locked = none := by
  cases o <;> rfl

theorem Pc.Knows.afterUnlock {next : Next} (h : (Pc.unlock v next : Pc P S).Knows R root m) :
    (Pc.afterUnlock v next : Pc P S).Knows R root m := by
  cases next
  · exact h
  · exact h
  · exact VisitOk.path h

theorem Pc.locked_afterUnlock {next : Next} : (Pc.afterUnlock v next : Pc P S).locked = none := by
  cases next <;> rfl

theorem Pc.Knows.afterScan {s : Scan S} (hv : VisitOk root m v)
    (hexp : m.state v.node = .expanded) (hbest : s.best < m.childNum v.node) :
    (Pc.afterScan v s).Knows R root m := by
  unfold Pc.afterScan
  split_ifs <;> exact ⟨hv, hexp, hbest⟩

theorem Pc.locked_afterScan {s : Scan S} : (Pc.afterScan v s).locked = none := by
  unfold Pc.afterScan
  split_ifs <;> rfl

theorem Scan.best_offer {ops : PuctOps S} {s : Scan S} {k : Nat} {x : S} {n : Nat}
    (hs : s.best < n) (hk : k < n) : (s.offer ops k x).best < n := by
  unfold Scan.offer
  split_ifs
  · exact hk
  · exact hs

@[simp] theorem Scan.best_seeDraw {s : Scan S} {b : Bool} : (s.seeDraw b).best = s.best := by
  cases b <;> rfl

/-- The edge traversed last is one of a published node. -/
theorem PathOk.childFlags_setParentFlag (h : PathOk m path) {o : Outcome} {e : Edge}
    (he : m.state e.1 ≠ .expanded) : (m.setParentFlag path o).childFlags e = m.childFlags e := by
  cases path with
  | nil => rfl
  | cons d rest =>
    have hne : e ≠ d := by
      rintro rfl
      exact he (h e List.mem_cons_self).1
    exact Function.update_of_ne hne ..

end Path

/-- Behind the edges of a published node there are legal moves. -/
theorem Sound.exists_move (hs : Sound R root m) {a : Addr} {k : Nat}
    (ha : m.state a = .expanded) (hk : k < m.childNum a) :
    ∃ mv, mv ∈ R.generateLegalMoves (m.pos a) ∧ m.childMove (a, k) = some mv := by
  obtain ⟨hlen, hmoves⟩ | ⟨hzero, -⟩ := hs.built a ha
  · refine ⟨_, List.getElem_mem (hlen ▸ hk), ?_⟩
    rw [hmoves k hk, List.getElem?_eq_getElem]
  · omega

/-- The memory stays sound. -/
theorem Act.sound (h : Act R ops root i m pc m' pc') (hs : Sound R root m)
    (hk : Known R root i m pc) : Sound R root m' := by
  obtain ⟨hknows, hlock⟩ := hk
  cases h
  case resolve v o locked =>
    exact hs.sameTree (.setParentFlag ..) fun e => (VisitOk.path hknows).childFlags_setParentFlag
  case setParent v o k =>
    exact hs.sameTree (.setParentFlag ..) fun e => hknows.1.path.childFlags_setParentFlag
  case lockEval v free => exact hs.setMutex
  case lockExpand v free => exact hs.setMutex
  case unlock v next => exact hs.setMutex
  case createChild v k empty =>
    obtain ⟨hv, hexp, hk⟩ := hknows
    obtain ⟨mv, -, hmove⟩ := hs.exists_move hexp hk
    refine ⟨hs.publishChild hexp hk hmove ?_, hs.root_lt.trans (Nat.lt_succ_self _),
      hs.root_expanded⟩
    rw [hmove, Option.elim_some, hv.board]
  case noMoves v =>
    obtain ⟨hv, hfresh, -⟩ := hknows
    have hne : m.state v.node ≠ .expanded := by rw [hfresh]; decide
    exact hs.onlyAt (.setChildNum _) hne hv.lt (fun hexp => absurd hexp hne) fun k =>
      hs.blank (v.node, k) hne
  case publishNoMoves v =>
    obtain ⟨hv, hfresh, hno, hnum⟩ := hknows
    have hne : m.state v.node ≠ .expanded := by rw [hfresh]; decide
    exact hs.onlyAt (.setState _) hne hv.lt (fun _ => Or.inr ⟨hnum, hv.board ▸ hno⟩) fun k =>
      hs.blank (v.node, k) hne
  case setEvaled v valueWin =>
    obtain ⟨hv, hfresh⟩ := hknows
    have hne : m.state v.node ≠ .expanded := by rw [hfresh]; decide
    refine hs.onlyAt (.setState _) hne hv.lt (fun hexp => ?_) fun k => hs.blank (v.node, k) hne
    rw [Memory.state_setState_self] at hexp
    cases hexp
  case expandNode v =>
    obtain ⟨hv, hev⟩ := hknows
    have hne : m.state v.node ≠ .expanded := by rw [hev]; decide
    exact hs.onlyAt (.setChildNum _) hne hv.lt (fun hexp => absurd hexp hne) fun k =>
      hs.blank (v.node, k) hne
  case newArray v =>
    obtain ⟨hv, hev, -⟩ := hknows
    have hne : m.state v.node ≠ .expanded := by rw [hev]; decide
    exact hs.onlyAt .newArray hne hv.lt (fun hexp => absurd hexp hne) fun k =>
      ⟨Memory.childNode_newArray, Memory.childFlags_newArray⟩
  case writeMove v k =>
    obtain ⟨hv, hev, -⟩ := hknows
    have hne : m.state v.node ≠ .expanded := by rw [hev]; decide
    exact hs.onlyAt (.setChildMove ..) hne hv.lt (fun hexp => absurd hexp hne) fun k =>
      hs.blank (v.node, k) hne
  case writePrior v k x =>
    obtain ⟨hv, hev, -⟩ := hknows
    have hne : m.state v.node ≠ .expanded := by rw [hev]; decide
    exact hs.onlyAt (.setChildNnrate ..) hne hv.lt (fun hexp => absurd hexp hne) fun k =>
      hs.blank (v.node, k) hne
  case setExpanded v =>
    obtain ⟨hv, hev, hbuilt⟩ := hknows
    have hne : m.state v.node ≠ .expanded := by rw [hev]; decide
    exact hs.onlyAt (.setState _) hne hv.lt (fun _ => hbuilt) fun k => hs.blank (v.node, k) hne
  all_goals
    exact Sound.sameTree (m := m) ⟨rfl, rfl, rfl, rfl, rfl, rfl, rfl, rfl, rfl⟩ (fun _ _ => rfl) hs

/-- The thread of a step that changes no node knows as much as before. -/
theorem Known.sameTree (hsame : SameTree m m') (h : Known R root i m pc) : Known R root i m' pc :=
  h.mono hsame.grows hsame.frame

/-- A step between two places without a mutex. -/
theorem Known.free (hpc : pc.locked = none) (h : pc.Knows R root m) : Known R root i m pc :=
  ⟨h, fun p hp => by rw [hpc] at hp; cases hp⟩

/-- The thread of a step knows what it relies on next. -/
theorem Act.known (h : Act R ops root i m pc m' pc') (hs : Sound R root m)
    (hk : Known R root i m pc) : Known R root i m' pc' := by
  obtain ⟨hgrows, -⟩ := h.frame hs hk
  have hknown := hk
  obtain ⟨hknows, hlock⟩ := hk
  cases h
  case start => exact .free Pc.locked_enter (.enter (.atStart hs))
  case stop => exact .free rfl trivial
  case proven v e rest o path =>
    split_ifs
    · exact .free rfl (VisitOk.path hknows)
    · exact .free Pc.locked_afterProven (.afterProven hknows)
  case adjudicated v o verdict => exact .free rfl hknows
  case notAdjudicated v verdict => exact .free rfl hknows
  case resolve v o locked =>
    have hv : VisitOk root (m.setParentFlag v.path o.flag) v := VisitOk.grow hgrows hknows
    cases locked
    · exact .free rfl hv.path
    · exact ⟨hv, fun p hp => ((SameTree.setParentFlag ..).frame (R := R)).mutex _ (hlock p hp)⟩
  case checkEvaled v =>
    split_ifs with hstate
    · exact .free rfl hknows
    · exact .free rfl ⟨hknows, hstate⟩
  case lockEval v free =>
    refine ⟨VisitOk.grow hgrows hknows, fun p hp => ?_⟩
    obtain rfl : v.board = p := Option.some.inj hp
    exact Function.update_self ..
  case recheckEvaled v =>
    split_ifs with hstate
    · exact ⟨⟨hknows, hstate⟩, hlock⟩
    · exact ⟨⟨hknows, hstate⟩, hlock⟩
  case leafMate v mate => exact ⟨hknows.1, hlock⟩
  case leafNoMove v mate noMove => exact ⟨⟨hknows.1, hknows.2, noMove⟩, hlock⟩
  case leafOpen v mate noMove => exact ⟨hknows, hlock⟩
  case noMoves v =>
    obtain ⟨hv, hfresh, hno⟩ := hknows
    exact ⟨⟨hv.grow hgrows, hfresh, hno, Memory.childNum_setChildNum_self⟩, hlock⟩
  case publishNoMoves v => exact ⟨VisitOk.grow hgrows hknows.1, hlock⟩
  case evaluateLeaf v valueWin => exact ⟨⟨hknows.1.grow hgrows, hknows.2⟩, hlock⟩
  case setEvaled v valueWin => exact ⟨VisitOk.grow hgrows hknows.1, hlock⟩
  case unlock v next =>
    refine .free Pc.locked_afterUnlock (.afterUnlock ?_)
    cases next
    · exact ⟨hknows.1.grow hgrows, hknows.2⟩
    · exact ⟨hknows.1.grow hgrows, hknows.2⟩
    · exact VisitOk.grow hgrows hknows
  case checkExpanded v =>
    split_ifs with hstate
    · exact .free rfl ⟨hknows.1, hstate⟩
    · exact .free rfl hknows
  case lockExpand v free =>
    refine ⟨⟨hknows.1.grow hgrows, hknows.2⟩, fun p hp => ?_⟩
    obtain rfl : v.board = p := Option.some.inj hp
    exact Function.update_self ..
  case recheckExpanded v =>
    obtain ⟨hv, hfresh⟩ := hknows
    split_ifs with hstate
    · exact ⟨⟨hv, hstate⟩, hlock⟩
    · have hev : m.state v.node = .evaluated := by
        cases hcase : m.state v.node with
        | fresh => exact absurd hcase hfresh
        | evaluated => rfl
        | expanded => exact absurd hcase hstate
      exact ⟨⟨hv, hev⟩, hlock⟩
  case expandNode v =>
    obtain ⟨hv, hev⟩ := hknows
    have hv' := hv.grow hgrows
    split_ifs with hempty
    · -- without legal moves the node is complete
      refine ⟨⟨hv', hev, Or.inl ⟨?_, fun k hk => ?_⟩⟩, hlock⟩
      · exact Memory.childNum_setChildNum_self.trans
          (congrArg (fun p => (R.generateLegalMoves p).length) hv.board)
      · rw [Memory.childNum_setChildNum_self, List.isEmpty_iff.mp hempty] at hk
        exact absurd hk (Nat.not_lt_zero k)
    · exact ⟨⟨hv', hev, Memory.childNum_setChildNum_self⟩, hlock⟩
  case newArray v =>
    obtain ⟨hv, hev, hnum⟩ := hknows
    exact ⟨⟨hv.grow hgrows, hev, hnum, fun l hl => absurd hl (Nat.not_lt_zero l)⟩, hlock⟩
  case writeMove v k =>
    obtain ⟨hv, hev, hnum, hmoves⟩ := hknows
    have hv' := hv.grow hgrows
    have hwritten : ∀ l, l < k + 1 → (m.setChildMove (v.node, k)
        (R.generateLegalMoves v.board)[k]?).childMove (v.node, l) =
        (R.generateLegalMoves v.board)[l]? := by
      intro l hl
      by_cases hlk : l = k
      · subst hlk
        exact Memory.childMove_setChildMove_self
      · rw [Memory.childMove_setChildMove_of_ne (fun h => hlk (congrArg Prod.snd h))]
        exact hmoves l (by omega)
    split_ifs with hmore
    · exact ⟨⟨hv', hev, hnum, hwritten⟩, hlock⟩
    · have hnum' : m.childNum v.node = (R.generateLegalMoves (m.pos v.node)).length := by
        rw [hnum, hv.board]
      refine ⟨⟨hv', hev, Or.inl ⟨hnum', fun l hl => ?_⟩⟩, hlock⟩
      have hlen : l < (R.generateLegalMoves v.board).length := hnum ▸ hl
      exact (hwritten l (by omega)).trans
        (congrArg (fun p => (R.generateLegalMoves p)[l]?) hv.board)
  case writePrior v k x =>
    obtain ⟨hv, hev, hbuilt⟩ := hknows
    split_ifs
    · exact ⟨⟨hv.grow hgrows, hev, hbuilt⟩, hlock⟩
    · exact ⟨⟨hv.grow hgrows, hev, hbuilt⟩, hlock⟩
  case clearVisited v =>
    exact ⟨⟨hknows.1.grow hgrows, hknows.2.1, hknows.2.2⟩, hlock⟩
  case setExpanded v =>
    exact ⟨⟨hknows.1.grow hgrows, Memory.state_setState_self⟩, hlock⟩
  case readChildNum v =>
    split_ifs with hzero
    · exact .free rfl hknows.1
    · exact .free rfl ⟨hknows.1, hknows.2, Nat.pos_of_ne_zero hzero⟩
  case loadSum v => exact .free rfl hknows
  case loadSumWin v sum => exact .free rfl hknows
  case loadVisited v sum sumWin => exact .free rfl hknows
  case scan v k s more =>
    obtain ⟨hv, hexp, hbest⟩ := hknows
    split_ifs
    · exact .free rfl ⟨hv, hexp, more⟩
    · exact .free rfl ⟨hv, hexp, hbest, more⟩
  case scanned v k s done =>
    exact .free Pc.locked_afterScan (.afterScan hknows.1 hknows.2.1 hknows.2.2)
  case scanWin v k s =>
    obtain ⟨hv, hexp, hbest, hk⟩ := hknows
    split_ifs
    · exact .free rfl ⟨hv, hexp, hbest⟩
    · exact .free rfl ⟨hv, hexp, hbest, hk⟩
  case scanDraw v k s =>
    obtain ⟨hv, hexp, hbest, hk⟩ := hknows
    refine .free rfl ⟨hv, hexp, ?_, hk⟩
    rw [Scan.best_seeDraw]
    exact hbest
  case scanCount v k s =>
    obtain ⟨hv, hexp, hbest, hk⟩ := hknows
    split_ifs
    · exact .free rfl ⟨hv, hexp, Scan.best_offer hbest hk⟩
    · exact .free rfl ⟨hv, hexp, hbest, hk⟩
  case scanChildWin v k s n =>
    obtain ⟨hv, hexp, hbest, hk⟩ := hknows
    exact .free rfl ⟨hv, hexp, Scan.best_offer hbest hk⟩
  case setParent v o k =>
    have h' : (Pc.setParent v o k : Pc P S).Knows R root (m.setParentFlag v.path o) :=
      ((show Known R root i m (.setParent v o k : Pc P S) from hknown).sameTree (.setParentFlag ..)).1
    exact .free rfl h'
  case addVisited v k x sum => exact .free rfl ⟨hknows.1.grow hgrows, hknows.2⟩
  case addNode v k => exact .free rfl ⟨hknows.1.grow hgrows, hknows.2⟩
  case addEdge v k => exact .free rfl ⟨hknows.1.grow hgrows, hknows.2⟩
  case getChild v k b found => exact .free rfl ⟨hknows.1, hknows.2.1, hknows.2.2, found⟩
  case getNoChild v k empty => exact .free rfl hknows
  case createChild v k empty =>
    obtain ⟨hv, hexp, hk⟩ := hknows
    exact .free rfl ⟨hv.grow hgrows, hexp, hk, Memory.childNode_publishChild_self⟩
  case lostChild v k b found => exact .free rfl ⟨hknows.1, hknows.2.1, hknows.2.2, found⟩
  case descend v k b mv move =>
    obtain ⟨hv, hexp, hk, hb⟩ := hknows
    exact .free Pc.locked_enter (.enter (hv.down hs hexp hk hb move))
  case backup path x => exact .free rfl ⟨hknows, fun e he => hknows e (List.mem_reverse.mp he)⟩
  case backupNotFinite path => exact .free rfl hknows
  case validate p e todo =>
    split_ifs
    · exact .free rfl ⟨hknows.1, hknows.2.tail⟩
    · exact .free rfl hknows.1
  case validated p => exact .free rfl ⟨hknows.1, hknows.1⟩
  case updateNode p e todo x => exact .free rfl ⟨hknows.1.grow hgrows, hknows.2.grow hgrows⟩
  case updateEdge p e todo x => exact .free rfl ⟨hknows.1.grow hgrows, (hknows.2.grow hgrows).tail⟩
  case updated p x =>
    split_ifs
    · exact .free rfl (hknows.1.grow hgrows)
    · exact .free rfl trivial
  case unwindNode e todo => exact .free rfl (PathOk.grow hgrows hknows)
  case unwindEdge e todo => exact .free rfl (PathOk.grow hgrows hknows).tail
  case unwound => exact .free rfl trivial
  case butterfly e todo => exact .free rfl (PathOk.tail hknows)
  case butterflyDone => exact .free rfl trivial
  case reportDone => exact .free rfl trivial
  case checkRoot => exact .free rfl trivial
  case readRoot => exact .free rfl hs.root_expanded
  case checkNode a =>
    split_ifs with hstate
    · exact .free rfl hstate
    · exact .free rfl trivial
  case readChild a k bound => exact .free rfl hknows
  case followChild a k b bound child => exact .free rfl trivial
  case readDone a => exact .free rfl trivial

/-! ## Whole searches -/

section Searches

variable {priors : Nat → Num} {visited : Num}

theorem TreeOk.new (p : P) : TreeOk R (.new p : Memory ι P M) where
  above _ _ := rfl
  built _ h := by cases h
  blank _ _ := ⟨rfl, rfl⟩
  child _ _ h := by cases h

/-- `ExpandRoot` publishes the root with its children. -/
theorem TreeOk.expandChildren (h : TreeOk R m) (hroot : root < m.next) :
    Sound R root (m.expandChildren R root) := by
  unfold Memory.expandChildren
  split_ifs with hexp
  · exact ⟨h, hroot, hexp⟩
  · exact ⟨h.onlyAt .setChildren hexp hroot
      (fun _ => Or.inl ⟨Function.update_self .., fun k _ => if_pos rfl⟩) fun k =>
      ⟨Memory.childNode_newArray, Memory.childFlags_newArray⟩, hroot, Function.update_self ..⟩

theorem TreeOk.expandRoot (h : TreeOk R m) (hroot : root < m.next) :
    Sound R root (m.expandRoot R root priors visited) := by
  have hs := h.expandChildren hroot
  exact ⟨⟨hs.above, hs.built, hs.blank, hs.child⟩, hs.root_lt, hs.root_expanded⟩

variable [DecidableEq ι] {c : Threads.Config ι (Memory ι P M) (Pc P S)}

/-- In every state of a search the memory is sound and every thread knows what it relies on. -/
theorem known_of_reach (h : TreeOk R m) (hroot : root < m.next)
    (hrun : (searchers R ops root).Reach (startSearch R m root priors visited) c) :
    Sound R root c.shared ∧ ∀ i, Known R root i c.shared (c.own i) := by
  refine hrun.thread_invariant (I := Sound R root) (J := Known R root) ?_ ?_ ?_
  · exact ⟨h.expandRoot hroot, fun i => .free rfl trivial⟩
  · intro i s t s' t' hs ht hact
    exact ⟨Act.sound hact hs ht, Act.known hact hs ht⟩
  · intro i j s t s' t' x hs ht hx hne hact
    obtain ⟨hgrows, hframe⟩ := Act.frame hact hs ht
    exact hx.mono hgrows (hframe j hne)

/-- The trees that searches leave behind. -/
theorem treeOk_of_grown (h : Grown R ops m root) : TreeOk R m ∧ root < m.next := by
  induction h with
  | new p => exact ⟨.new p, one_pos⟩
  | search _ run _ ih =>
    obtain ⟨hs, -⟩ := known_of_reach ih.1 ih.2 run
    exact ⟨hs.toTreeOk, hs.root_lt⟩
  | toChild _ child ih => exact ⟨ih.1, (ih.1.child _ _ child).2.1⟩
  | toNewChild _ expanded bound move _ ih =>
    exact ⟨ih.1.publishChild expanded bound move rfl, Nat.lt_succ_self _⟩

/-- In every state of every search. -/
theorem known_of_grown (hm : Grown R ops m root)
    (hrun : (searchers R ops root).Reach (startSearch R m root priors visited) c) :
    Sound R root c.shared ∧ ∀ i, Known R root i c.shared (c.own i) :=
  known_of_reach (treeOk_of_grown hm).1 (treeOk_of_grown hm).2 hrun

end Searches

end Shogi.Mcts
