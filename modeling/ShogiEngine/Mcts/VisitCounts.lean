import Mathlib.Algebra.BigOperators.Intervals
import Mathlib.Tactic.Ring
import ShogiEngine.Mcts.NodeStates
import ShogiEngine.Mcts.SearchRules

/-!
# Visits and wins

What the search threads add to the counts and win sums of nodes and edges, on the way down and in the
backup, and take away again when a playout is rejected.

## Main definitions

- `Account`: what a thread has added so far
- `TallyStep`: the steps that change a count or a sum
- `Conserved`: the counts in one state, and the sums when no thread is at work

## Main results

- `conserved_of_grown`: the counts and sums of every search
-/

namespace Shogi.Mcts

variable {ι P M S : Type} {R : Rules P M} {ops : PuctOps S} {root : Addr} {i j : ι}
  {m m' : Memory ι P M} {pc pc' : Pc P S}

/-! ## Accounts -/

/-- What a thread has added. On the way down it has counted one visit for each edge of `path` and its
node (`flying`), perhaps one more for the node of the next edge (`adding`). In the backup of `p` the
edges `todo` are still to come, with value `x` for the first of them (`updating`), or the node of
`e` has got its value and `e` itself has not (`updatingEdge`). After a rejection the visits of `todo` are
still to be taken away (`unwinding`), perhaps that of `e` but not that of its node
(`unwindingEdge`). -/
inductive Account
  | flying (path : List Edge)
  | adding (path : List Edge) (a : Addr)
  | updating (p : Playout) (todo : List Edge) (x : ℚ)
  | updatingEdge (p : Playout) (e : Edge) (todo : List Edge) (x : ℚ)
  | unwinding (todo : List Edge)
  | unwindingEdge (e : Edge) (todo : List Edge)

/-- The edges that have been counted. -/
def Account.edges : Account → List Edge
  | .flying path | .adding path _ => path
  | .updating p _ _ | .updatingEdge p _ _ _ => p.path
  | .unwinding todo => todo
  | .unwindingEdge e todo => e :: todo

/-- The account of a thread. -/
def Pc.account : Pc P S → Account
  | .proven v _ | .adjudicate v | .resolve v _ _ | .checkEvaled v | .lockEval v | .recheckEvaled v
  | .firstVisit v | .noMoves v | .publishNoMoves v | .evaluateLeaf v | .setEvaled v _ | .unlock v _
  | .checkExpanded v | .lockExpand v | .recheckExpanded v | .expandNode v | .newArray v
  | .writeMove v _ | .writePrior v _ | .clearVisited v | .setExpanded v | .readChildNum v
  | .loadSum v | .loadSumWin v _ | .loadVisited v _ _ | .scan v _ _ | .scanWin v _ _
  | .scanDraw v _ _ | .scanCount v _ _ | .scanChildWin v _ _ _ | .setParent v _ _
  | .addVisited v _ | .addNode v _ => .flying v.path
  | .addEdge v _ => .adding v.path v.node
  | .getChild v k | .createChild v k | .descend v k _ => .flying ((v.node, k) :: v.path)
  | .backup path _ => .flying path
  | .validate p _ => .flying p.path
  | .updateNode p todo x => .updating p todo x
  | .updateEdge p e todo x => .updatingEdge p e todo x
  | .unwindNode todo => .unwinding todo
  | .unwindEdge e todo => .unwindingEdge e todo
  | .idle | .joined | .butterfly _ | .report | .checkNode _ | .readNode _ => .flying []

/-- The same counts and sums. -/
structure SameTallies (m m' : Memory ι P M) : Prop where
  moveCount : m'.moveCount = m.moveCount
  win : m'.win = m.win
  childMoveCount : m'.childMoveCount = m.childMoveCount
  childWin : m'.childWin = m.childWin
  playouts : m'.playouts = m.playouts

/-- An edge of a published node. -/
def EdgeOk (m : Memory ι P M) (e : Edge) : Prop := m.state e.1 = .expanded ∧ e.2 < m.childNum e.1

/-- The steps that change a count or a sum, or what a thread is about to do to them. -/
inductive TallyStep (m : Memory ι P M) : Account → Memory ι P M → Account → Prop
  | addNode (path a) : TallyStep m (.flying path) (m.addMoveCount a 1) (.adding path a)
  | addEdge (path e) (ok : EdgeOk m e) (below : ∀ d ∈ path, d.1 < e.1) :
      TallyStep m (.adding path e.1) (m.addChildMoveCount e 1) (.flying (e :: path))
  | accept (p) : TallyStep m (.flying p.path) m (.updating p p.path p.value)
  | updateNode (p e todo x) :
      TallyStep m (.updating p (e :: todo) x) (m.addWin e.1 x) (.updatingEdge p e todo x)
  | updateEdge (p e todo x) (ok : EdgeOk m e) :
      TallyStep m (.updatingEdge p e todo x) (m.addChildWin e x) (.updating p todo (1 - x))
  | updated (p x) : TallyStep m (.updating p [] x) (m.logPlayout p) (.flying [])
  | reject (path) : TallyStep m (.flying path) m (.unwinding path)
  | unwindNode (e todo) :
      TallyStep m (.unwinding (e :: todo)) (m.addMoveCount e.1 (-1)) (.unwindingEdge e todo)
  | unwindEdge (e todo) (ok : EdgeOk m e) :
      TallyStep m (.unwindingEdge e todo) (m.addChildMoveCount e (-1)) (.unwinding todo)
  | unwound : TallyStep m (.unwinding []) m (.flying [])

/-- Edges that have not been published have been neither counted nor credited. -/
def Untouched (m : Memory ι P M) : Prop :=
  ∀ e : Edge, m.state e.1 ≠ .expanded → m.childMoveCount e = 0 ∧ m.childWin e = 0

section Untouched

theorem Untouched.addChildMoveCount (h : Untouched m) {e : Edge} {n : Int}
    (he : m.state e.1 = .expanded) : Untouched (m.addChildMoveCount e n) := by
  intro d hd
  have hne : d ≠ e := by
    rintro rfl
    exact hd he
  exact ⟨(Function.update_of_ne hne ..).trans (h d hd).1, (h d hd).2⟩

theorem Untouched.addChildWin (h : Untouched m) {e : Edge} {x : ℚ}
    (he : m.state e.1 = .expanded) : Untouched (m.addChildWin e x) := by
  intro d hd
  have hne : d ≠ e := by
    rintro rfl
    exact hd he
  exact ⟨(h d hd).1, (Function.update_of_ne hne ..).trans (h d hd).2⟩

/-- The new array of an unpublished node changes no count. -/
theorem Untouched.newArray (h : Untouched m) {a : Addr} (ha : m.state a ≠ .expanded) :
    SameTallies m (m.newArray a) where
  moveCount := rfl
  win := rfl
  childMoveCount := by
    funext e
    by_cases he : e.1 = a
    · exact (if_pos he).trans (h e (he ▸ ha)).1.symm
    · exact if_neg he
  childWin := by
    funext e
    by_cases he : e.1 = a
    · exact (if_pos he).trans (h e (he ▸ ha)).2.symm
    · exact if_neg he
  playouts := rfl

theorem Untouched.sameTallies (h : Untouched m) (hs : SameTallies m m')
    (hstate : ∀ a, m.state a = .expanded → m'.state a = .expanded) : Untouched m' := by
  intro e he
  rw [hs.childMoveCount, hs.childWin]
  exact h e fun hexp => he (hstate _ hexp)

end Untouched

theorem SameTallies.setParentFlag (m : Memory ι P M) (path : List Edge) (o : Outcome) :
    SameTallies m (m.setParentFlag path o) := by
  cases path <;> exact ⟨rfl, rfl, rfl, rfl, rfl⟩

theorem Pc.account_enter {v : Visit P} : (Pc.enter v : Pc P S).account = .flying v.path := by
  unfold Pc.enter
  split_ifs <;> rfl

theorem Pc.account_afterProven {v : Visit P} {o : Outcome} :
    (Pc.afterProven v o : Pc P S).account = .flying v.path := by
  cases o <;> rfl

theorem Pc.account_afterUnlock {v : Visit P} {next : Next} :
    (Pc.afterUnlock v next : Pc P S).account = .flying v.path := by
  cases next <;> rfl

theorem Pc.account_afterScan {v : Visit P} {s : Scan S} :
    (Pc.afterScan v s).account = .flying v.path := by
  unfold Pc.afterScan
  split_ifs <;> rfl

/-- The nodes of a path lie above the node that it leads to. -/
theorem VisitOk.below {v : Visit P} (hv : VisitOk root m v) (hs : Sound R root m)
    (ho : v.path.Pairwise fun d d' => d'.1 < d.1) : ∀ d ∈ v.path, d.1 < v.node := by
  cases hpath : v.path with
  | nil => exact fun d hd => absurd hd List.not_mem_nil
  | cons e rest =>
    have he := (hs.child e _ (hv.parent e rest hpath).1).1
    rw [hpath, List.pairwise_cons] at ho
    intro d hd
    rw [List.mem_cons] at hd
    obtain rfl | hd := hd
    · exact he
    · exact (ho.1 d hd).trans he

/-- A step leaves counts, sums and the own account as they are, or it is one of those above. -/
theorem Act.tally (h : Act R ops root i m pc m' pc') (hs : Sound R root m)
    (hk : Known R root i m pc) (hu : Untouched m)
    (ho : pc.account.edges.Pairwise fun d d' => d'.1 < d.1) :
    (SameTallies m m' ∧ pc'.account = pc.account) ∨
      TallyStep m pc.account m' pc'.account := by
  obtain ⟨hknows, -⟩ := hk
  cases h
  case start => exact Or.inl ⟨⟨rfl, rfl, rfl, rfl, rfl⟩, Pc.account_enter⟩
  case proven v e rest o path =>
    refine Or.inl ⟨⟨rfl, rfl, rfl, rfl, rfl⟩, ?_⟩
    split_ifs
    · rfl
    · exact Pc.account_afterProven
  case resolve v o locked =>
    refine Or.inl ⟨.setParentFlag .., ?_⟩
    cases locked <;> rfl
  case setParent v o k => exact Or.inl ⟨.setParentFlag .., rfl⟩
  case unlock v next => exact Or.inl ⟨⟨rfl, rfl, rfl, rfl, rfl⟩, Pc.account_afterUnlock⟩
  case newArray v =>
    exact Or.inl ⟨hu.newArray (by rw [hknows.2.1]; decide), rfl⟩
  case scanned v k s done => exact Or.inl ⟨⟨rfl, rfl, rfl, rfl, rfl⟩, Pc.account_afterScan⟩
  case descend v k b mv move => exact Or.inl ⟨⟨rfl, rfl, rfl, rfl, rfl⟩, Pc.account_enter⟩
  case addNode v k => exact Or.inr (.addNode ..)
  case addEdge v k =>
    obtain ⟨hv, hexp, hlt⟩ := hknows
    exact Or.inr (.addEdge v.path (v.node, k) ⟨hexp, hlt⟩ (hv.below hs ho))
  case backupNotFinite path => exact Or.inr (.reject _)
  case validate p e todo =>
    split_ifs
    · exact Or.inl ⟨⟨rfl, rfl, rfl, rfl, rfl⟩, rfl⟩
    · exact Or.inr (.reject _)
  case validated p => exact Or.inr (.accept p)
  case updateNode p e todo x => exact Or.inr (.updateNode ..)
  case updateEdge p e todo x =>
    exact Or.inr (.updateEdge _ _ _ _ (hknows.2 e List.mem_cons_self))
  case updated p x =>
    split_ifs
    · exact Or.inr (.updated ..)
    · exact Or.inr (.updated ..)
  case unwindNode e todo => exact Or.inr (.unwindNode ..)
  case unwindEdge e todo => exact Or.inr (.unwindEdge _ _ (hknows e List.mem_cons_self))
  case unwound => exact Or.inr .unwound
  case checkEvaled v | recheckEvaled v | checkExpanded v | recheckExpanded v | expandNode v |
      writeMove v _ | writePrior v _ _ | readChildNum v | scan v _ _ _ | scanWin v _ _ |
      scanCount v _ _ =>
    refine Or.inl ⟨⟨rfl, rfl, rfl, rfl, rfl⟩, ?_⟩
    split_ifs <;> rfl
  case checkNode a =>
    refine Or.inl ⟨⟨rfl, rfl, rfl, rfl, rfl⟩, ?_⟩
    split_ifs <;> rfl
  all_goals exact Or.inl ⟨⟨rfl, rfl, rfl, rfl, rfl⟩, rfl⟩

/-! ## The invariant of the accounts -/

/-- Untouched edges, and paths that run down from the root over edges of published nodes. -/
structure Accounted (c : Threads.Config ι (Memory ι P M) (Pc P S)) : Prop where
  untouched : Untouched c.shared
  logged : ∀ p ∈ c.shared.playouts, PathOk c.shared p.path ∧ p.path.Pairwise fun d d' => d'.1 < d.1
  own : ∀ i, PathOk c.shared (c.own i).account.edges ∧
    (c.own i).account.edges.Pairwise fun d d' => d'.1 < d.1

/-- What a step does to the memory and to the own account. -/
theorem TallyStep.keeps {acc acc' : Account} (h : TallyStep m acc m' acc') (hu : Untouched m)
    (hl : ∀ p ∈ m.playouts, PathOk m p.path ∧ p.path.Pairwise fun d d' => d'.1 < d.1)
    (ha : PathOk m acc.edges ∧ acc.edges.Pairwise fun d d' => d'.1 < d.1) :
    Untouched m' ∧
      (∀ p ∈ m'.playouts, PathOk m p.path ∧ p.path.Pairwise fun d d' => d'.1 < d.1) ∧
      PathOk m acc'.edges ∧ acc'.edges.Pairwise fun d d' => d'.1 < d.1 := by
  cases h with
  | addNode path a => exact ⟨hu, hl, ha⟩
  | addEdge path e ok below =>
    refine ⟨hu.addChildMoveCount ok.1, hl, fun d hd => ?_, List.pairwise_cons.mpr ⟨below, ha.2⟩⟩
    obtain rfl | hd := List.mem_cons.mp hd
    · exact ok
    · exact ha.1 d hd
  | accept p => exact ⟨hu, hl, ha⟩
  | updateNode p e todo x => exact ⟨hu, hl, ha⟩
  | updateEdge p e todo x ok => exact ⟨hu.addChildWin ok.1, hl, ha⟩
  | updated p x =>
    refine ⟨hu, fun q hq => ?_, fun d hd => absurd hd List.not_mem_nil, List.Pairwise.nil⟩
    obtain rfl | hq := List.mem_cons.mp hq
    · exact ha
    · exact hl q hq
  | reject path => exact ⟨hu, hl, ha⟩
  | unwindNode e todo => exact ⟨hu, hl, ha⟩
  | unwindEdge e todo ok =>
    exact ⟨hu.addChildMoveCount ok.1, hl, PathOk.tail ha.1, (List.pairwise_cons.mp ha.2).2⟩
  | unwound => exact ⟨hu, hl, ha⟩

theorem Accounted.step {c : Threads.Config ι (Memory ι P M) (Pc P S)} [DecidableEq ι]
    (h : Accounted c) (hact : Act R ops root i c.shared (c.own i) m' pc')
    (hs : Sound R root c.shared) (hk : Known R root i c.shared (c.own i)) :
    Accounted (c.set i m' pc') := by
  have hg := (hact.frame hs hk).1
  have hall : Untouched m' ∧
      (∀ p ∈ m'.playouts, PathOk c.shared p.path ∧ p.path.Pairwise fun d d' => d'.1 < d.1) ∧
      PathOk c.shared pc'.account.edges ∧ pc'.account.edges.Pairwise fun d d' => d'.1 < d.1 := by
    obtain ⟨hsame, hacc⟩ | hstep := hact.tally hs hk h.untouched (h.own i).2
    · rw [hsame.playouts, hacc]
      exact ⟨h.untouched.sameTallies hsame fun a ha => (hg.expanded a ha).1, h.logged, h.own i⟩
    · exact hstep.keeps h.untouched h.logged (h.own i)
  obtain ⟨hu, hl, ha⟩ := hall
  refine ⟨hu, fun p hp => ⟨(hl p hp).1.grow hg, (hl p hp).2⟩, fun j => ?_⟩
  by_cases hj : j = i
  · subst hj
    rw [Threads.Config.own_set_self]
    exact ⟨ha.1.grow hg, ha.2⟩
  · rw [Threads.Config.own_set_of_ne hj]
    exact ⟨(h.own j).1.grow hg, (h.own j).2⟩

/-! ## Counts and sums -/

section Amounts

variable (q : Edge → Prop) [DecidablePred q]

/-- The value of a path's edges that `q` selects, each seen by the player who traversed it: `x` for the last
edge, flipped once per ply towards the root. -/
def credit : List Edge → ℚ → ℚ
  | [], _ => 0
  | d :: rest, x => (if q d then x else 0) + credit rest (1 - x)

/-- How often accepted playouts have passed edges that `q` selects. -/
def passed (ps : List Playout) : ℤ := (ps.map fun p => (p.path.countP q : ℤ)).sum

/-- What accepted playouts have brought to the edges that `q` selects. -/
def earned (ps : List Playout) : ℚ := (ps.map fun p => credit q p.path p.value).sum

end Amounts

namespace Account

/-- The visits of an edge that the thread has counted. -/
def edgeVisits (e : Edge) (acc : Account) : ℤ := acc.edges.countP (· = e)

/-- The visits of a node that the thread has counted. -/
def nodeVisits (a : Addr) (acc : Account) : ℤ :=
  acc.edges.countP (·.1 = a) +
    match acc with
    | .adding _ b => if b = a then 1 else 0
    | .unwindingEdge e _ => if e.1 = a then -1 else 0
    | _ => 0

/-- What the thread has added to the sum of an edge in a backup under way. -/
def edgeCredit (e : Edge) : Account → ℚ
  | .updating p todo x => credit (· = e) p.path p.value - credit (· = e) todo x
  | .updatingEdge p d todo x => credit (· = e) p.path p.value - credit (· = e) (d :: todo) x
  | _ => 0

/-- What the thread has added to the sum of a node in a backup under way. -/
def nodeCredit (a : Addr) : Account → ℚ
  | .updating p todo x => credit (·.1 = a) p.path p.value - credit (·.1 = a) todo x
  | .updatingEdge p _ todo x => credit (·.1 = a) p.path p.value - credit (·.1 = a) todo (1 - x)
  | _ => 0

end Account

section Conservation

variable {acc acc' : Account} {e : Edge} {a : Addr}

theorem TallyStep.edgeVisits (h : TallyStep m acc m' acc') (e : Edge) :
    m'.childMoveCount e - passed (· = e) m'.playouts - acc'.edgeVisits e =
      m.childMoveCount e - passed (· = e) m.playouts - acc.edgeVisits e := by
  cases h with
  | addEdge path d ok below =>
    by_cases hd : d = e
    · subst hd
      simp [Memory.addChildMoveCount, Account.edgeVisits, Account.edges]
      ring
    · simp [Memory.addChildMoveCount, Account.edgeVisits, Account.edges, hd, Ne.symm hd]
  | unwindEdge d todo ok =>
    by_cases hd : d = e
    · subst hd
      simp [Memory.addChildMoveCount, Account.edgeVisits, Account.edges]
      ring
    · simp [Memory.addChildMoveCount, Account.edgeVisits, Account.edges, hd, Ne.symm hd]
  | updated p x =>
    simp [Memory.logPlayout, passed, Account.edgeVisits, Account.edges]
    ring
  | unwindNode d todo => rfl
  | addNode path a => rfl
  | accept p => rfl
  | updateNode p d todo x => rfl
  | updateEdge p d todo x ok => rfl
  | reject path => rfl
  | unwound => rfl

theorem TallyStep.nodeVisits (h : TallyStep m acc m' acc') (a : Addr) :
    m'.moveCount a - passed (·.1 = a) m'.playouts - acc'.nodeVisits a =
      m.moveCount a - passed (·.1 = a) m.playouts - acc.nodeVisits a := by
  cases h with
  | addNode path b =>
    by_cases hb : b = a
    · subst hb
      simp [Memory.addMoveCount, Account.nodeVisits, Account.edges]
      ring
    · simp [Memory.addMoveCount, Account.nodeVisits, Account.edges, hb, Ne.symm hb]
  | addEdge path d ok below =>
    by_cases hd : d.1 = a
    · simp [Memory.addChildMoveCount, Account.nodeVisits, Account.edges, hd]
    · simp [Memory.addChildMoveCount, Account.nodeVisits, Account.edges, hd]
  | unwindNode d todo =>
    by_cases hd : d.1 = a
    · subst hd
      simp [Memory.addMoveCount, Account.nodeVisits, Account.edges]
      ring
    · simp [Memory.addMoveCount, Account.nodeVisits, Account.edges, hd, Ne.symm hd]
  | unwindEdge d todo ok =>
    by_cases hd : d.1 = a
    · simp [Memory.addChildMoveCount, Account.nodeVisits, Account.edges, hd]
    · simp [Memory.addChildMoveCount, Account.nodeVisits, Account.edges, hd]
  | updated p x =>
    simp [Memory.logPlayout, passed, Account.nodeVisits, Account.edges]
    ring
  | accept p => rfl
  | updateNode p d todo x => rfl
  | updateEdge p d todo x ok => rfl
  | reject path => rfl
  | unwound => rfl

theorem TallyStep.edgeCredit (h : TallyStep m acc m' acc') (e : Edge) :
    m'.childWin e - earned (· = e) m'.playouts - acc'.edgeCredit e =
      m.childWin e - earned (· = e) m.playouts - acc.edgeCredit e := by
  cases h with
  | updateEdge p d todo x ok =>
    by_cases hd : d = e
    · subst hd
      simp [Memory.addChildWin, Account.edgeCredit, credit]
      ring
    · simp [Memory.addChildWin, Account.edgeCredit, credit, hd, Ne.symm hd]
  | updated p x =>
    simp [Memory.logPlayout, earned, Account.edgeCredit, credit]
    ring
  | accept p => simp [Account.edgeCredit]
  | addNode path a => rfl
  | addEdge path d ok below => rfl
  | updateNode p d todo x => rfl
  | unwindNode d todo => rfl
  | unwindEdge d todo ok => rfl
  | reject path => rfl
  | unwound => rfl

theorem TallyStep.nodeCredit (h : TallyStep m acc m' acc') (a : Addr) :
    m'.win a - earned (·.1 = a) m'.playouts - acc'.nodeCredit a =
      m.win a - earned (·.1 = a) m.playouts - acc.nodeCredit a := by
  cases h with
  | updateNode p d todo x =>
    by_cases hd : d.1 = a
    · subst hd
      simp [Memory.addWin, Account.nodeCredit, credit]
      ring
    · simp [Memory.addWin, Account.nodeCredit, credit, hd, Ne.symm hd]
  | updated p x =>
    simp [Memory.logPlayout, earned, Account.nodeCredit, credit]
    ring
  | accept p => simp [Account.nodeCredit]
  | addNode path a => rfl
  | addEdge path d ok below => rfl
  | updateEdge p d todo x ok => rfl
  | unwindNode d todo => rfl
  | unwindEdge d todo ok => rfl
  | reject path => rfl
  | unwound => rfl

end Conservation

/-! ## A node and its edges -/

section Edges

variable {a : Addr} {n : Nat} {path : List Edge}

/-- The visits of a node are those of its edges. -/
theorem countP_node (h : ∀ d ∈ path, d.1 = a → d.2 < n) :
    (path.countP (·.1 = a) : ℤ) = ∑ k ∈ Finset.range n, (path.countP (· = (a, k)) : ℤ) := by
  induction path with
  | nil => simp
  | cons d rest ih =>
    have ih := ih fun d' hd' => h d' (List.mem_cons_of_mem _ hd')
    simp only [List.countP_cons, Nat.cast_add, Finset.sum_add_distrib, ← ih]
    congr 1
    by_cases hd : d.1 = a
    · have hlt := h d List.mem_cons_self hd
      rw [Finset.sum_eq_single_of_mem d.2 (Finset.mem_range.mpr hlt)]
      · simp [← hd]
      · intro k _ hk
        have hne : d ≠ (a, k) := fun heq => hk (by rw [heq])
        simp [hne]
    · have hne : ∀ k, d ≠ (a, k) := fun k heq => hd (by rw [heq])
      simp [hd, hne]

/-- What a playout brings to a node is what it brings to its edges. -/
theorem credit_node (h : ∀ d ∈ path, d.1 = a → d.2 < n) (x : ℚ) :
    credit (·.1 = a) path x = ∑ k ∈ Finset.range n, credit (· = (a, k)) path x := by
  induction path generalizing x with
  | nil => simp [credit]
  | cons d rest ih =>
    have ih := ih (fun d' hd' => h d' (List.mem_cons_of_mem _ hd')) (1 - x)
    simp only [credit, Finset.sum_add_distrib, ← ih]
    congr 1
    by_cases hd : d.1 = a
    · have hlt := h d List.mem_cons_self hd
      rw [Finset.sum_eq_single_of_mem d.2 (Finset.mem_range.mpr hlt)]
      · simp [← hd]
      · intro k _ hk
        have hne : d ≠ (a, k) := fun heq => hk (by rw [heq])
        simp [hne]
    · have hne : ∀ k, d ≠ (a, k) := fun k heq => hd (by rw [heq])
      simp [hd, hne]

theorem PathOk.lt (h : PathOk m path) : ∀ d ∈ path, d.1 = a → d.2 < m.childNum a := by
  rintro d hd rfl
  exact (h d hd).2

theorem passed_node {ps : List Playout} (h : ∀ p ∈ ps, PathOk m p.path) :
    passed (·.1 = a) ps = ∑ k ∈ Finset.range (m.childNum a), passed (· = (a, k)) ps := by
  induction ps with
  | nil => simp [passed]
  | cons p ps ih =>
    have ih := ih fun p' hp' => h p' (List.mem_cons_of_mem _ hp')
    simp only [passed, List.map_cons, List.sum_cons, Finset.sum_add_distrib] at ih ⊢
    rw [ih, countP_node (h p List.mem_cons_self).lt]

theorem earned_node {ps : List Playout} (h : ∀ p ∈ ps, PathOk m p.path) :
    earned (·.1 = a) ps = ∑ k ∈ Finset.range (m.childNum a), earned (· = (a, k)) ps := by
  induction ps with
  | nil => simp [earned]
  | cons p ps ih =>
    have ih := ih fun p' hp' => h p' (List.mem_cons_of_mem _ hp')
    simp only [earned, List.map_cons, List.sum_cons, Finset.sum_add_distrib] at ih ⊢
    rw [ih, credit_node (h p List.mem_cons_self).lt]

/-- A path passes an edge once at most. -/
theorem countP_eq_ite {e : Edge} (h : path.Pairwise fun d d' => d'.1 < d.1) :
    path.countP (· = e) = if e ∈ path then 1 else 0 := by
  have hnodup : path.Nodup := h.imp fun hlt heq => absurd (heq ▸ hlt) (lt_irrefl _)
  have hcount : path.countP (· = e) = path.count e := by
    rw [List.count]
    exact List.countP_congr fun d _ => by simp
  rw [hcount, hnodup.count]

theorem passed_edge {e : Edge} {ps : List Playout}
    (h : ∀ p ∈ ps, p.path.Pairwise fun d d' => d'.1 < d.1) :
    passed (· = e) ps = ps.countP (e ∈ ·.path) := by
  induction ps with
  | nil => rfl
  | cons p ps ih =>
    have ih := ih fun p' hp' => h p' (List.mem_cons_of_mem _ hp')
    simp only [passed, List.map_cons, List.sum_cons, List.countP_cons] at ih ⊢
    rw [ih, countP_eq_ite (h p List.mem_cons_self)]
    by_cases hmem : e ∈ p.path
    · simp [hmem, add_comm]
    · simp [hmem]

end Edges

/-- The node whose visit has been counted while that of its edge has not. -/
def Account.halfAdded : Account → Option Addr
  | .adding _ a => some a
  | _ => none

/-- The node whose visit has been taken away while that of its edge has not. -/
def Account.halfRemoved : Account → Option Addr
  | .unwindingEdge e _ => some e.1
  | _ => none

/-- Between the two counts of an edge the node differs by one. -/
theorem Account.nodeVisits_eq {acc : Account} {a : Addr} (h : PathOk m acc.edges) :
    acc.nodeVisits a + (if acc.halfRemoved = some a then 1 else 0) =
      ∑ k ∈ Finset.range (m.childNum a), acc.edgeVisits (a, k) +
        if acc.halfAdded = some a then 1 else 0 := by
  have hcount := countP_node (n := m.childNum a) (h.lt (a := a))
  unfold nodeVisits edgeVisits
  rw [hcount]
  cases acc with
  | adding path b => by_cases hb : b = a <;> simp [halfAdded, halfRemoved, hb]
  | unwindingEdge e todo => by_cases he : e.1 = a <;> simp [halfAdded, halfRemoved, he]
  | flying path => simp [halfAdded, halfRemoved]
  | updating p todo x => simp [halfAdded, halfRemoved]
  | updatingEdge p e todo x => simp [halfAdded, halfRemoved]
  | unwinding todo => simp [halfAdded, halfRemoved]

/-! ## Searches -/

section Searches

variable {priors : Nat → Num} {visited : Num}

/-- The counts and sums of a tree on which no thread is at work. -/
structure TalliesAtRest (m : Memory ι P M) : Prop where
  untouched : Untouched m
  logged : ∀ p ∈ m.playouts, PathOk m p.path ∧ p.path.Pairwise fun d d' => d'.1 < d.1
  childMoveCount : ∀ e, m.childMoveCount e = passed (· = e) m.playouts
  moveCount : ∀ a, m.moveCount a = passed (·.1 = a) m.playouts
  childWin : ∀ e, m.childWin e = earned (· = e) m.playouts
  win : ∀ a, m.win a = earned (·.1 = a) m.playouts

theorem PathOk.congr {path : List Edge} (h : PathOk m path)
    (hnode : ∀ a, m.state a = .expanded → m'.state a = .expanded ∧ m'.childNum a = m.childNum a) :
    PathOk m' path := by
  intro d hd
  obtain ⟨hexp, hlt⟩ := h d hd
  obtain ⟨hexp', hnum⟩ := hnode _ hexp
  exact ⟨hexp', hnum ▸ hlt⟩

theorem TalliesAtRest.expandRoot (h : TalliesAtRest m) :
    TalliesAtRest (m.expandRoot R root priors visited) := by
  have hchildren : TalliesAtRest (m.expandChildren R root) := by
    unfold Memory.expandChildren
    split_ifs with hexp
    · exact h
    · have hsame : SameTallies m (m.setChildren root (R.generateLegalMoves (m.pos root))) := by
        obtain ⟨-, -, hcount, hwin, -⟩ := h.untouched.newArray hexp
        exact ⟨rfl, rfl, hcount, hwin, rfl⟩
      have hnode : ∀ a, m.state a = .expanded →
          (m.setChildren root (R.generateLegalMoves (m.pos root))).state a = .expanded ∧
          (m.setChildren root (R.generateLegalMoves (m.pos root))).childNum a = m.childNum a := by
        intro a ha
        have honly : OnlyAt root m (m.setChildren root (R.generateLegalMoves (m.pos root))) :=
          .setChildren
        obtain ⟨hstate, hnum, -⟩ := honly.node a fun hroot => hexp (hroot ▸ ha)
        exact ⟨hstate.trans ha, hnum⟩
      refine ⟨h.untouched.sameTallies hsame fun a ha => (hnode a ha).1,
        fun p hp => ⟨(h.logged p hp).1.congr hnode, (h.logged p hp).2⟩, fun e => ?_, fun a => ?_,
        fun e => ?_, fun a => ?_⟩
      · rw [hsame.childMoveCount]
        exact h.childMoveCount e
      · exact h.moveCount a
      · rw [hsame.childWin]
        exact h.childWin e
      · exact h.win a
  exact ⟨hchildren.untouched, hchildren.logged, hchildren.childMoveCount, hchildren.moveCount,
    hchildren.childWin, hchildren.win⟩

variable [DecidableEq ι] {c : Threads.Config ι (Memory ι P M) (Pc P S)}

theorem accounted_of_reach (hm : Grown R ops m root) (hrest : TalliesAtRest m)
    (hrun : (searchers R ops root).Reach (startSearch R m root priors visited) c) :
    Accounted c := by
  refine hrun.invariant (I := Accounted) ?_ ?_
  · have h : TalliesAtRest (m.expandRoot R root priors visited) := hrest.expandRoot
    exact ⟨h.untouched, h.logged, fun i => ⟨fun d hd => absurd hd List.not_mem_nil,
      List.Pairwise.nil⟩⟩
  · rintro i c c' hreach hc ⟨s, t, hact, rfl⟩
    obtain ⟨hs, hknown⟩ := known_of_grown hm hreach
    exact hc.step hact hs (hknown i)

variable [Fintype ι]

/-- An amount that no step changes in sum. -/
theorem amount_of_reach {A : Type} [AddCommGroup A] {f : Memory ι P M → A} {g : Account → A}
    (hm : Grown R ops m root) (hrest : TalliesAtRest m)
    (hzero : f (m.expandRoot R root priors visited) = 0) (hg : g (.flying []) = 0)
    (hsame : ∀ m m' : Memory ι P M, SameTallies m m' → f m' = f m)
    (hstep : ∀ (m m' : Memory ι P M) acc acc', TallyStep m acc m' acc' → f m' - g acc' = f m - g acc)
    (hrun : (searchers R ops root).Reach (startSearch R m root priors visited) c) :
    f c.shared = ∑ i, g (c.own i).account := by
  refine hrun.conserved (f := f) (g := fun pc : Pc P S => g pc.account) ?_ ?_
  · refine hzero.trans (Finset.sum_eq_zero fun i _ => ?_).symm
    exact hg
  · intro i c s t hreach hact
    obtain ⟨hs, hknown⟩ := known_of_grown hm hreach
    have hc := accounted_of_reach hm hrest hreach
    obtain ⟨hsame', hacc⟩ | htally := Act.tally hact hs (hknown i) hc.untouched (hc.own i).2
    · rw [hsame _ _ hsame', hacc]
    · exact hstep _ _ _ _ htally

/-- The four amounts in every state of a search. -/
theorem amounts_of_reach (hm : Grown R ops m root) (hrest : TalliesAtRest m)
    (hrun : (searchers R ops root).Reach (startSearch R m root priors visited) c) :
    (∀ e, c.shared.childMoveCount e =
      passed (· = e) c.shared.playouts + ∑ i, (c.own i).account.edgeVisits e) ∧
    (∀ a, c.shared.moveCount a =
      passed (·.1 = a) c.shared.playouts + ∑ i, (c.own i).account.nodeVisits a) ∧
    (∀ e, c.shared.childWin e =
      earned (· = e) c.shared.playouts + ∑ i, (c.own i).account.edgeCredit e) ∧
    ∀ a, c.shared.win a =
      earned (·.1 = a) c.shared.playouts + ∑ i, (c.own i).account.nodeCredit a := by
  have hstart : TalliesAtRest (m.expandRoot R root priors visited) := hrest.expandRoot
  refine ⟨fun e => ?_, fun a => ?_, fun e => ?_, fun a => ?_⟩
  · rw [← sub_eq_iff_eq_add']
    refine amount_of_reach (f := fun m => m.childMoveCount e - passed (· = e) m.playouts)
      (g := Account.edgeVisits e) hm hrest ?_ rfl ?_ (fun _ _ _ _ h => h.edgeVisits e) hrun
    · exact sub_eq_zero.mpr (hstart.childMoveCount e)
    · intro m m' h
      rw [h.childMoveCount, h.playouts]
  · rw [← sub_eq_iff_eq_add']
    refine amount_of_reach (f := fun m => m.moveCount a - passed (·.1 = a) m.playouts)
      (g := Account.nodeVisits a) hm hrest ?_ rfl ?_ (fun _ _ _ _ h => h.nodeVisits a) hrun
    · exact sub_eq_zero.mpr (hstart.moveCount a)
    · intro m m' h
      rw [h.moveCount, h.playouts]
  · rw [← sub_eq_iff_eq_add']
    refine amount_of_reach (f := fun m => m.childWin e - earned (· = e) m.playouts)
      (g := Account.edgeCredit e) hm hrest ?_ rfl ?_ (fun _ _ _ _ h => h.edgeCredit e) hrun
    · exact sub_eq_zero.mpr (hstart.childWin e)
    · intro m m' h
      rw [h.childWin, h.playouts]
  · rw [← sub_eq_iff_eq_add']
    refine amount_of_reach (f := fun m => m.win a - earned (·.1 = a) m.playouts)
      (g := Account.nodeCredit a) hm hrest ?_ rfl ?_ (fun _ _ _ _ h => h.nodeCredit a) hrun
    · exact sub_eq_zero.mpr (hstart.win a)
    · intro m m' h
      rw [h.win, h.playouts]

/-- When all threads have joined, everything comes from accepted playouts. -/
theorem talliesAtRest_of_joined (hm : Grown R ops m root) (hrest : TalliesAtRest m)
    (hrun : (searchers R ops root).Reach (startSearch R m root priors visited) c)
    (joined : ∀ i, c.own i = .joined) : TalliesAtRest c.shared := by
  have hacc := accounted_of_reach hm hrest hrun
  obtain ⟨hedge, hnode, hedgeWin, hnodeWin⟩ := amounts_of_reach hm hrest hrun
  have hzero : ∀ i, (c.own i).account = .flying [] := fun i => by rw [joined i]; rfl
  simp only [hzero] at hedge hnode hedgeWin hnodeWin
  refine ⟨hacc.untouched, hacc.logged, fun e => ?_, fun a => ?_, fun e => ?_, fun a => ?_⟩
  · exact (hedge e).trans (by simp [Account.edgeVisits, Account.edges])
  · exact (hnode a).trans (by simp [Account.nodeVisits, Account.edges])
  · exact (hedgeWin e).trans (by simp [Account.edgeCredit])
  · exact (hnodeWin a).trans (by simp [Account.nodeCredit])

theorem talliesAtRest_of_grown (hm : Grown R ops m root) : TalliesAtRest m := by
  induction hm with
  | new p =>
    exact ⟨fun e _ => ⟨rfl, rfl⟩, fun p hp => absurd hp List.not_mem_nil, fun _ => rfl, fun _ => rfl,
      fun _ => rfl, fun _ => rfl⟩
  | search grown run joined ih => exact talliesAtRest_of_joined grown ih run joined
  | toChild _ _ ih => exact ih
  | toNewChild _ _ _ _ _ ih =>
    exact ⟨ih.untouched, ih.logged, ih.childMoveCount, ih.moveCount, ih.childWin, ih.win⟩

/-- The counts in one state: an edge counts the accepted playouts through it and those in flight, and a
node the visits of its edges, up to the threads between the two counts of an edge. When all threads have
joined only accepted playouts remain, and the win sums are theirs. -/
structure Conserved (c : Threads.Config ι (Memory ι P M) (Pc P S)) : Prop where
  edge : ∀ e, c.shared.childMoveCount e = c.shared.playouts.countP (e ∈ ·.path) +
    (Finset.univ.filter fun i => e ∈ (c.own i).account.edges).card
  node : ∀ a, c.shared.moveCount a +
      (Finset.univ.filter fun i => (c.own i).account.halfRemoved = some a).card =
    ∑ k ∈ Finset.range (c.shared.childNum a), c.shared.childMoveCount (a, k) +
      (Finset.univ.filter fun i => (c.own i).account.halfAdded = some a).card
  edgeAtRest : (∀ i, c.own i = .joined) → ∀ e,
    c.shared.childMoveCount e = c.shared.playouts.countP (e ∈ ·.path) ∧
    c.shared.childWin e = earned (· = e) c.shared.playouts
  nodeAtRest : (∀ i, c.own i = .joined) → ∀ a,
    c.shared.moveCount a =
      ∑ k ∈ Finset.range (c.shared.childNum a), c.shared.childMoveCount (a, k) ∧
    c.shared.win a = ∑ k ∈ Finset.range (c.shared.childNum a), c.shared.childWin (a, k)

/-- The counts and sums of every search on every tree. -/
theorem conserved_of_grown (hm : Grown R ops m root)
    (hrun : (searchers R ops root).Reach (startSearch R m root priors visited) c) :
    Conserved c := by
  have hrest := talliesAtRest_of_grown hm
  have hacc := accounted_of_reach hm hrest hrun
  obtain ⟨hedge, hnode, -, -⟩ := amounts_of_reach hm hrest hrun
  refine ⟨fun e => ?_, fun a => ?_, fun joined e => ?_, fun joined a => ?_⟩
  · rw [hedge e, passed_edge fun p hp => (hacc.logged p hp).2, Finset.card_filter]
    congr 1
    push_cast
    refine Finset.sum_congr rfl fun i _ => ?_
    rw [Account.edgeVisits, countP_eq_ite (hacc.own i).2]
    split_ifs <;> rfl
  · -- the sums over the edges of the node, thread by thread
    have hedges : ∑ k ∈ Finset.range (c.shared.childNum a), c.shared.childMoveCount (a, k) =
        passed (·.1 = a) c.shared.playouts + ∑ i, ∑ k ∈ Finset.range (c.shared.childNum a),
          (c.own i).account.edgeVisits (a, k) := by
      rw [Finset.sum_congr rfl fun k _ => hedge (a, k), Finset.sum_add_distrib,
        ← passed_node fun p hp => (hacc.logged p hp).1, Finset.sum_comm]
    have hthreads : ∑ i, (c.own i).account.nodeVisits a +
        (Finset.univ.filter fun i => (c.own i).account.halfRemoved = some a).card =
        ∑ i, ∑ k ∈ Finset.range (c.shared.childNum a), (c.own i).account.edgeVisits (a, k) +
        (Finset.univ.filter fun i => (c.own i).account.halfAdded = some a).card := by
      rw [Finset.card_filter, Finset.card_filter]
      push_cast
      rw [← Finset.sum_add_distrib, ← Finset.sum_add_distrib]
      exact Finset.sum_congr rfl fun i _ => Account.nodeVisits_eq (hacc.own i).1
    rw [hnode a, hedges, add_assoc, hthreads, add_assoc]
  · have h := talliesAtRest_of_joined hm hrest hrun joined
    refine ⟨?_, h.childWin e⟩
    rw [h.childMoveCount e, passed_edge fun p hp => (h.logged p hp).2]
  · have h := talliesAtRest_of_joined hm hrest hrun joined
    constructor
    · rw [h.moveCount a, passed_node fun p hp => (h.logged p hp).1]
      exact Finset.sum_congr rfl fun k _ => (h.childMoveCount (a, k)).symm
    · rw [h.win a, earned_node fun p hp => (h.logged p hp).1]
      exact Finset.sum_congr rfl fun k _ => (h.childWin (a, k)).symm

theorem conserved_goldStart : Conserved goldStart :=
  conserved_of_grown grown_new_goldEnding .start

end Searches

/-! ## Between the two counts of an edge -/

section HalfAdded

variable [DecidableEq ι] {c₀ c : Threads.Config ι (Memory ι P M) (Pc P S)}

/-- The loop of `SelectPuctChild` over children without flags and visits comes to its end. -/
theorem exists_scanned {v : Visit P} {n : Nat} (hflags : ∀ k o, m.childFlags (v.node, k) o = false)
    (hcount : ∀ k, m.childMoveCount (v.node, k) = 0) (hn : m.childNum v.node = n) :
    ∀ r k s c, r = n - k → (searchers R ops root).Reach c₀ c → c.shared = m →
      c.own i = .scan v k s →
      ∃ c' s', (searchers R ops root).Reach c₀ c' ∧ c'.shared = m ∧ c'.own i = .afterScan v s' := by
  intro r
  induction r with
  | zero =>
    intro k s c hr h hs ho
    obtain ⟨c₁, h₁, hs₁, ho₁⟩ := h.act hs ho (Act.scanned m v k s (by omega))
    exact ⟨c₁, s, h₁, hs₁, ho₁⟩
  | succ r ih =>
    intro k s c hr h hs ho
    obtain ⟨c₁, h₁, hs₁, ho₁⟩ := h.act hs ho (Act.scan m v k s (by omega))
    rw [hflags, if_neg Bool.false_ne_true] at ho₁
    obtain ⟨c₂, h₂, hs₂, ho₂⟩ := h₁.act hs₁ ho₁ (Act.scanWin m v k s)
    rw [hflags, if_neg Bool.false_ne_true] at ho₂
    obtain ⟨c₃, h₃, hs₃, ho₃⟩ := h₂.act hs₂ ho₂ (Act.scanDraw m v k _)
    obtain ⟨c₄, h₄, hs₄, ho₄⟩ := h₃.act hs₃ ho₃ (Act.scanCount m v k _)
    rw [if_pos (hcount k)] at ho₄
    exact ih _ _ _ (by omega) h₄ hs₄ ho₄

/-- A thread that starts at a published root without flags and visits gets as far as to count a visit of
the root, and of none of its edges. -/
theorem exists_halfAdded (hrun : (searchers R ops root).Reach c₀ c) (hidle : c.own i = .idle)
    (hexp : c.shared.state root = .expanded) (hnum : c.shared.childNum root ≠ 0)
    (hopen : R.adjudicate (c.shared.pos root) true = none)
    (hflags : ∀ k o, c.shared.childFlags (root, k) o = false)
    (hcount : ∀ k, c.shared.childMoveCount (root, k) = 0) :
    ∃ c', (searchers R ops root).Reach c₀ c' ∧
      c'.shared.moveCount root = c.shared.moveCount root + 1 ∧
      c'.shared.childMoveCount = c.shared.childMoveCount := by
  set m := c.shared with hm
  set v : Visit P := ⟨m.pos root, root, []⟩ with hv
  obtain ⟨c₁, h₁, hs₁, ho₁⟩ := hrun.act hm.symm hidle (Act.start m)
  rw [Pc.enter, if_pos rfl] at ho₁
  obtain ⟨c₂, h₂, hs₂, ho₂⟩ := h₁.act hs₁ ho₁ (Act.notAdjudicated m v hopen)
  obtain ⟨c₃, h₃, hs₃, ho₃⟩ := h₂.act hs₂ ho₂ (Act.checkEvaled m v)
  rw [if_neg (show ¬ m.state v.node = .fresh by rw [hv, hexp]; decide)] at ho₃
  obtain ⟨c₄, h₄, hs₄, ho₄⟩ := h₃.act hs₃ ho₃ (Act.checkExpanded m v)
  rw [if_pos (show m.state v.node = .expanded from hexp)] at ho₄
  obtain ⟨c₅, h₅, hs₅, ho₅⟩ := h₄.act hs₄ ho₄ (Act.readChildNum m v)
  rw [if_neg (show ¬ m.childNum v.node = 0 from hnum)] at ho₅
  obtain ⟨c₆, h₆, hs₆, ho₆⟩ := h₅.act hs₅ ho₅ (Act.loadSum m v)
  obtain ⟨c₇, h₇, hs₇, ho₇⟩ := h₆.act hs₆ ho₆ (Act.loadSumWin m v _)
  obtain ⟨c₈, h₈, hs₈, ho₈⟩ := h₇.act hs₇ ho₇ (Act.loadVisited m v _ _)
  obtain ⟨c₉, s, h₉, hs₉, ho₉⟩ := exists_scanned (v := v) hflags hcount rfl _ _ _ _ rfl h₈ hs₈ ho₈
  -- the loop may end in three ways; without an edge above none of them sets a flag
  have hnext : ∃ c' k, (searchers R ops root).Reach c₀ c' ∧ c'.own i = .addNode v k ∧
      c'.shared.moveCount = m.moveCount ∧ c'.shared.childMoveCount = m.childMoveCount := by
    unfold Pc.afterScan at ho₉
    split_ifs at ho₉
    · obtain ⟨c', h', hs', ho'⟩ := h₉.act hs₉ ho₉ (Act.setParent m v _ _)
      exact ⟨c', _, h', ho', by rw [hs']; rfl, by rw [hs']; rfl⟩
    · obtain ⟨c', h', hs', ho'⟩ := h₉.act hs₉ ho₉ (Act.setParent m v _ _)
      exact ⟨c', _, h', ho', by rw [hs']; rfl, by rw [hs']; rfl⟩
    · obtain ⟨c', h', hs', ho'⟩ := h₉.act hs₉ ho₉ (Act.addVisited m v _ _ rfl)
      exact ⟨c', _, h', ho', by rw [hs']; rfl, by rw [hs']; rfl⟩
  obtain ⟨c', k, h', ho', hcount', hchild'⟩ := hnext
  obtain ⟨c'', h'', hs'', -⟩ := h'.act rfl ho' (Act.addNode c'.shared v k)
  refine ⟨c'', h'', ?_, ?_⟩
  · rw [hs'', ← hcount']
    exact Function.update_self ..
  · rw [hs'', ← hchild']
    rfl

end HalfAdded

/-- A thread may have counted a visit of a node and none yet of its edges. -/
theorem not_exact_goldStart : ¬ ∀ c, (searchers goldRules priorOps 0).Reach goldStart c →
    ∀ a, c.shared.moveCount a =
      ∑ k ∈ Finset.range (c.shared.childNum a), c.shared.childMoveCount (a, k) := by
  intro hall
  have hopen : goldRules.adjudicate ShogiBoard.goldEnding true = none := by decide +kernel
  have hmoves : ShogiBoard.goldEnding.generateLegalMoves.length ≠ 0 := by decide +kernel
  obtain ⟨c, hc, hnode, hedges⟩ := exists_halfAdded (i := (0 : Fin 2)) (c := goldStart)
    (.start : (searchers goldRules priorOps 0).Reach goldStart goldStart) rfl rfl hmoves hopen
    (fun _ _ => rfl) fun _ => rfl
  have h := hall c hc 0
  rw [hnode, hedges] at h
  have hzero : ∀ k, goldStart.shared.childMoveCount (0, k) = 0 := fun _ => rfl
  simp only [hzero, Finset.sum_const_zero] at h
  exact absurd h (by decide)

end Shogi.Mcts
