import ShogiEngine.Mcts.NodeStates
import ShogiEngine.Mcts.SearchRules

/-!
# What other threads see of a node

A node is evaluated once and expanded once, and its children are not looked at before that.

## Main definitions

- `NodeState.MayFollow`: the transitions of a node
- `Pc.reads`: the node whose children a thread is about to read
- `Protocol`: the publication protocol in one state, and for a step from it

## Main results

- `protocol_of_grown`: every search keeps to the protocol
-/

namespace Shogi.Mcts

variable {ι P M S : Type} {R : Rules P M} {ops : PuctOps S} {root : Addr} {i j : ι}
  {m m' : Memory ι P M} {pc pc' : Pc P S} {a : Addr}

/-- The transitions of a node, one without moves or not. -/
inductive NodeState.MayFollow (noMove : Bool) : NodeState → NodeState → Prop
  | same (s) : MayFollow noMove s s
  | evaluated : MayFollow noMove .fresh .evaluated
  | expanded : MayFollow noMove .evaluated .expanded
  | noMoves (h : noMove = true) : MayFollow noMove .fresh .expanded

/-- The node of which the next step of the thread reads `child_num`, a move, a prior or another part of
the child array. -/
def Pc.reads : Pc P S → Option Addr
  | .readChildNum v | .scan v _ _ | .scanWin v _ _ | .scanDraw v _ _ | .scanCount v _ _
  | .scanChildWin v _ _ _ | .addVisited v _ | .addEdge v _ | .getChild v _ | .createChild v _
  | .descend v _ _ => some v.node
  | .validate _ (e :: _) | .updateNode _ (e :: _) _ | .updateEdge _ e _ _ | .unwindNode (e :: _)
  | .unwindEdge e _ | .butterfly (e :: _) => some e.1
  | .readNode a => some a
  | _ => none

/-- The node that the thread is evaluating. -/
def Pc.evaluating : Pc P S → Option Addr
  | .setEvaled v _ => some v.node
  | _ => none

/-- The node whose new child array the thread is filling. -/
def Pc.building : Pc P S → Option Addr
  | .writeMove v _ | .writePrior v _ | .clearVisited v | .setExpanded v => some v.node
  | _ => none

/-- What the threads read has been published. -/
theorem Pc.Knows.reads (h : pc.Knows R root m) (ha : pc.reads = some a) :
    m.state a = .expanded := by
  cases pc
  case readChildNum v => exact Option.some.inj ha ▸ h.2
  case scan v _ _ | scanWin v _ _ | scanDraw v _ _ | scanCount v _ _ | scanChildWin v _ _ _ |
      addVisited v _ | addEdge v _ | getChild v _ | createChild v _ | descend v _ _ =>
    exact Option.some.inj ha ▸ h.2.1
  case validate p todo | updateNode p todo _ =>
    cases todo with
    | nil => cases ha
    | cons e todo => exact Option.some.inj ha ▸ (h.2 e List.mem_cons_self).1
  case updateEdge p e todo _ => exact Option.some.inj ha ▸ (h.2 e List.mem_cons_self).1
  case unwindNode todo | butterfly todo =>
    cases todo with
    | nil => cases ha
    | cons e todo => exact Option.some.inj ha ▸ (h e List.mem_cons_self).1
  case unwindEdge e todo => exact Option.some.inj ha ▸ (h e List.mem_cons_self).1
  case readNode b => exact Option.some.inj ha ▸ h
  all_goals cases ha

/-- A thread at work on a node holds its mutex. -/
theorem Known.mutex_of_working (h : Known R root i m pc)
    (ha : pc.evaluating = some a ∨ pc.building = some a) :
    m.mutex (R.mutexIndex (m.pos a)) = some i := by
  obtain ⟨hknows, hlock⟩ := h
  cases pc
  case setEvaled v _ =>
    obtain rfl : v.node = a := Option.some.inj (ha.resolve_right (by simp [Pc.building]))
    exact hknows.1.board ▸ hlock _ rfl
  case writeMove v _ | writePrior v _ | clearVisited v | setExpanded v =>
    obtain rfl : v.node = a := Option.some.inj (ha.resolve_left (by simp [Pc.evaluating]))
    exact hknows.1.board ▸ hlock _ rfl
  all_goals exact absurd ha (by simp [Pc.evaluating, Pc.building])

/-- The transition that a step makes at a node. -/
theorem Act.mayFollow (h : Act R ops root i m pc m' pc') (hk : Known R root i m pc) (a : Addr) :
    NodeState.MayFollow (R.noMove (m.pos a)) (m.state a) (m'.state a) := by
  obtain ⟨hknows, -⟩ := hk
  cases h
  case resolve v o locked => exact (SameTree.setParentFlag m v.path o.flag).state ▸ .same _
  case setParent v o k => exact (SameTree.setParentFlag m v.path o).state ▸ .same _
  case publishNoMoves v =>
    obtain ⟨hv, hfresh, hno, -⟩ := hknows
    by_cases ha : a = v.node
    · subst ha
      rw [Memory.state_setState_self, hfresh]
      exact .noMoves (hv.board ▸ hno)
    · exact Memory.state_setState_of_ne ha ▸ .same _
  case setEvaled v valueWin =>
    by_cases ha : a = v.node
    · subst ha
      rw [Memory.state_setState_self, hknows.2]
      exact .evaluated
    · exact Memory.state_setState_of_ne ha ▸ .same _
  case setExpanded v =>
    by_cases ha : a = v.node
    · subst ha
      rw [Memory.state_setState_self, hknows.2.1]
      exact .expanded
    · exact Memory.state_setState_of_ne ha ▸ .same _
  all_goals exact .same _

/-! ## Once only -/

/-- Work is counted at most once for a node, and where it is counted it is done or under way. -/
structure OnceOnly (count : Memory ι P M → Addr → Nat) (busy : Pc P S → Option Addr)
    (done : NodeState → Prop) (c : Threads.Config ι (Memory ι P M) (Pc P S)) : Prop where
  le_one : ∀ a, count c.shared a ≤ 1
  reason : ∀ a, count c.shared a ≠ 0 →
    done (c.shared.state a) ∨ ∃ i, busy (c.own i) = some a

/-- What a step may do to a count. -/
def Counts (R : Rules P M) (i : ι) (count : Memory ι P M → Addr → Nat) (busy : Pc P S → Option Addr)
    (done : NodeState → Prop) (m : Memory ι P M) (pc : Pc P S) (m' : Memory ι P M) (pc' : Pc P S) :
    Prop :=
  ∀ a, (count m' a = count m a ∧ (busy pc = some a → done (m'.state a) ∨ busy pc' = some a)) ∨
    (count m' a = count m a + 1 ∧ busy pc' = some a ∧ busy pc ≠ some a ∧ ¬ done (m.state a) ∧
      m.mutex (R.mutexIndex (m.pos a)) = some i)

section OnceOnly

variable [DecidableEq ι] {count : Memory ι P M → Addr → Nat} {busy : Pc P S → Option Addr}
  {done : NodeState → Prop} {c : Threads.Config ι (Memory ι P M) (Pc P S)}

theorem OnceOnly.step (h : OnceOnly count busy done c)
    (hstep : Counts R i count busy done c.shared (c.own i) m' pc')
    (hdone : ∀ a, done (c.shared.state a) → done (m'.state a))
    (hmutex : ∀ j a, busy (c.own j) = some a →
      c.shared.mutex (R.mutexIndex (c.shared.pos a)) = some j) :
    OnceOnly count busy done (c.set i m' pc') := by
  have hreason : ∀ a, count m' a ≠ 0 → count m' a = count c.shared a →
      (busy (c.own i) = some a → done (m'.state a) ∨ busy pc' = some a) →
      done (m'.state a) ∨ ∃ j, busy ((c.set i m' pc').own j) = some a := by
    intro a hne heq hbusy
    rw [heq] at hne
    obtain hd | ⟨j, hj⟩ := h.reason a hne
    · exact Or.inl (hdone a hd)
    · by_cases hji : j = i
      · subst hji
        obtain hd | hb := hbusy hj
        · exact Or.inl hd
        · exact Or.inr ⟨j, by rw [Threads.Config.own_set_self]; exact hb⟩
      · exact Or.inr ⟨j, by rw [Threads.Config.own_set_of_ne hji]; exact hj⟩
  refine ⟨fun a => ?_, fun a hne => ?_⟩
  · obtain ⟨heq, -⟩ | ⟨heq, -, hidle, hnot, hown⟩ := hstep a
    · exact heq.trans_le (h.le_one a)
    · -- were it counted already, another thread would hold the mutex
      have hzero : count c.shared a = 0 := by
        by_contra hne
        obtain hd | ⟨j, hj⟩ := h.reason a hne
        · exact hnot hd
        · have hji : j = i := Option.some.inj ((hmutex j a hj).symm.trans hown)
          exact hidle (hji ▸ hj)
      exact (heq.trans (by rw [hzero])).le
  · obtain ⟨heq, hbusy⟩ | ⟨-, hbusy, -⟩ := hstep a
    · exact hreason a hne heq hbusy
    · exact Or.inr ⟨i, by rw [Threads.Config.own_set_self]; exact hbusy⟩

end OnceOnly

theorem Act.countsEvals (h : Act R ops root i m pc m' pc') (hk : Known R root i m pc) :
    Counts R i Memory.evals Pc.evaluating (fun s => s ≠ .fresh) m pc m' pc' := by
  obtain ⟨hknows, hlock⟩ := hk
  intro a
  cases h
  case evaluateLeaf v valueWin =>
    by_cases ha : a = v.node
    · subst ha
      exact Or.inr ⟨Function.update_self .., rfl, by simp [Pc.evaluating],
        fun hne => hne hknows.2, hknows.1.board ▸ hlock _ rfl⟩
    · exact Or.inl ⟨Function.update_of_ne ha .., fun hbusy => by cases hbusy⟩
  case setEvaled v valueWin =>
    refine Or.inl ⟨rfl, fun hbusy => Or.inl ?_⟩
    obtain rfl : v.node = a := Option.some.inj hbusy
    rw [Memory.state_setState_self]
    decide
  case resolve v o locked =>
    refine Or.inl ⟨?_, fun hbusy => by cases hbusy⟩
    cases hpath : v.path <;> rfl
  case setParent v o k =>
    refine Or.inl ⟨?_, fun hbusy => by cases hbusy⟩
    cases hpath : v.path <;> rfl
  all_goals exact Or.inl ⟨rfl, fun hbusy => by cases hbusy⟩

theorem Act.countsArrays (h : Act R ops root i m pc m' pc') (hk : Known R root i m pc) :
    Counts R i Memory.arrays Pc.building (fun s => s = .expanded) m pc m' pc' := by
  obtain ⟨hknows, hlock⟩ := hk
  intro a
  cases h
  case newArray v =>
    by_cases ha : a = v.node
    · subst ha
      refine Or.inr ⟨Function.update_self .., rfl, by simp [Pc.building], ?_,
        hknows.1.board ▸ hlock _ rfl⟩
      rw [hknows.2.1]
      decide
    · exact Or.inl ⟨Function.update_of_ne ha .., fun hbusy => by cases hbusy⟩
  case writeMove v k =>
    refine Or.inl ⟨rfl, fun hbusy => Or.inr ?_⟩
    split_ifs <;> exact hbusy
  case writePrior v k x =>
    refine Or.inl ⟨rfl, fun hbusy => Or.inr ?_⟩
    split_ifs <;> exact hbusy
  case clearVisited v => exact Or.inl ⟨rfl, fun hbusy => Or.inr hbusy⟩
  case setExpanded v =>
    refine Or.inl ⟨rfl, fun hbusy => Or.inl ?_⟩
    obtain rfl : v.node = a := Option.some.inj hbusy
    exact Memory.state_setState_self
  case resolve v o locked =>
    exact Or.inl ⟨congrFun (SameTree.setParentFlag m v.path o.flag).arrays a,
      fun hbusy => by cases hbusy⟩
  case setParent v o k =>
    exact Or.inl ⟨congrFun (SameTree.setParentFlag m v.path o).arrays a,
      fun hbusy => by cases hbusy⟩
  all_goals exact Or.inl ⟨rfl, fun hbusy => by cases hbusy⟩

/-! ## Searches -/

section Searches

variable {priors : Nat → Num} {visited : Num}

/-- The counts of a tree on which no thread is at work. -/
structure CountsAtRest (m : Memory ι P M) : Prop where
  evals_le : ∀ a, m.evals a ≤ 1
  evaluated : ∀ a, m.evals a ≠ 0 → m.state a ≠ .fresh
  arrays_le : ∀ a, m.arrays a ≤ 1
  built : ∀ a, m.arrays a ≠ 0 → m.state a = .expanded

theorem CountsAtRest.expandRoot (h : CountsAtRest m) :
    CountsAtRest (m.expandRoot R root priors visited) := by
  have hchildren : CountsAtRest (m.expandChildren R root) := by
    unfold Memory.expandChildren
    split_ifs with hexp
    · exact h
    · have hzero : m.arrays root = 0 := by
        by_contra hne
        exact hexp (h.built root hne)
      have hother : ∀ a, a ≠ root → (m.setChildren root (R.generateLegalMoves (m.pos root))).state a =
          m.state a ∧ (m.setChildren root (R.generateLegalMoves (m.pos root))).arrays a =
          m.arrays a := fun a ha => ⟨(OnlyAt.setChildren.node a ha).1, (OnlyAt.setChildren.node a ha).2.2⟩
      have hstate : (m.setChildren root (R.generateLegalMoves (m.pos root))).state root =
          .expanded := Function.update_self ..
      have harrays : (m.setChildren root (R.generateLegalMoves (m.pos root))).arrays root =
          m.arrays root + 1 := Function.update_self ..
      refine ⟨h.evals_le, fun a hne => ?_, fun a => ?_, fun a hne => ?_⟩
      · by_cases ha : a = root
        · rw [ha, hstate]
          decide
        · rw [(hother a ha).1]
          exact h.evaluated a hne
      · by_cases ha : a = root
        · rw [ha, harrays, hzero]
        · rw [(hother a ha).2]
          exact h.arrays_le a
      · by_cases ha : a = root
        · rw [ha, hstate]
        · rw [(hother a ha).1]
          rw [(hother a ha).2] at hne
          exact h.built a hne
  exact ⟨hchildren.evals_le, hchildren.evaluated, hchildren.arrays_le, hchildren.built⟩

variable [DecidableEq ι] {c : Threads.Config ι (Memory ι P M) (Pc P S)}

/-- The counts during a search. -/
def Once (c : Threads.Config ι (Memory ι P M) (Pc P S)) : Prop :=
  OnceOnly Memory.evals Pc.evaluating (fun s => s ≠ .fresh) c ∧
    OnceOnly Memory.arrays Pc.building (fun s => s = .expanded) c

theorem once_of_reach (hm : Grown R ops m root) (hcounts : CountsAtRest m)
    (hrun : (searchers R ops root).Reach (startSearch R m root priors visited) c) : Once c := by
  refine hrun.invariant (I := Once) ?_ ?_
  · have h : CountsAtRest (m.expandRoot R root priors visited) := hcounts.expandRoot
    exact ⟨⟨h.evals_le, fun a ha => Or.inl (h.evaluated a ha)⟩,
      ⟨h.arrays_le, fun a ha => Or.inl (h.built a ha)⟩⟩
  · intro i c c' hreach hc hstep
    obtain ⟨s, t, hact, rfl⟩ := hstep
    obtain ⟨hs, hknown⟩ := known_of_grown hm hreach
    obtain ⟨hgrows, -⟩ := Act.frame hact hs (hknown i)
    exact ⟨hc.1.step (Act.countsEvals hact (hknown i)) hgrows.notFresh fun j a ha =>
        (hknown j).mutex_of_working (Or.inl ha),
      hc.2.step (Act.countsArrays hact (hknown i)) (fun a ha => (hgrows.expanded a ha).1) fun j a ha =>
        (hknown j).mutex_of_working (Or.inr ha)⟩

theorem countsAtRest_of_grown (hm : Grown R ops m root) : CountsAtRest m := by
  induction hm with
  | new p => exact ⟨fun _ => zero_le_one, fun _ h => absurd rfl h, fun _ => zero_le_one,
      fun _ h => absurd rfl h⟩
  | @search m root priors visited c grown run joined ih =>
    obtain ⟨hevals, harrays⟩ := once_of_reach grown ih run
    refine ⟨hevals.le_one, fun a ha => ?_, harrays.le_one, fun a ha => ?_⟩
    · obtain hd | ⟨i, hi⟩ := hevals.reason a ha
      · exact hd
      · rw [joined i] at hi
        cases hi
    · obtain hd | ⟨i, hi⟩ := harrays.reason a ha
      · exact hd
      · rw [joined i] at hi
        cases hi
  | toChild _ _ ih => exact ih
  | toNewChild _ _ _ _ _ ih => exact ⟨ih.evals_le, ih.evaluated, ih.arrays_le, ih.built⟩

/-- The publication protocol: each node is evaluated once at most and gets one child array at most, no
thread is about to read the children of a node that is not expanded, and a step moves each node along
its states and leaves the children of expanded nodes alone. -/
structure Protocol (R : Rules P M) (ops : PuctOps S) (root : Addr)
    (c : Threads.Config ι (Memory ι P M) (Pc P S)) : Prop where
  evals_le : ∀ a, c.shared.evals a ≤ 1
  arrays_le : ∀ a, c.shared.arrays a ≤ 1
  reads : ∀ i a, (c.own i).reads = some a → c.shared.state a = .expanded
  transition : ∀ i c', (searchers R ops root).Step i c c' → ∀ a,
    NodeState.MayFollow (R.noMove (c.shared.pos a)) (c.shared.state a) (c'.shared.state a)
  kept : ∀ i c', (searchers R ops root).Step i c c' → ∀ a, c.shared.state a = .expanded →
    c'.shared.childNum a = c.shared.childNum a ∧ c'.shared.arrays a = c.shared.arrays a ∧
      ∀ k, c'.shared.childMove (a, k) = c.shared.childMove (a, k) ∧
        c'.shared.childNnrate (a, k) = c.shared.childNnrate (a, k)

/-- Every search on every tree keeps to the publication protocol in every state. -/
theorem protocol_of_grown (hm : Grown R ops m root)
    (hrun : (searchers R ops root).Reach (startSearch R m root priors visited) c) :
    Protocol R ops root c := by
  obtain ⟨hs, hknown⟩ := known_of_grown hm hrun
  obtain ⟨hevals, harrays⟩ := once_of_reach hm (countsAtRest_of_grown hm) hrun
  refine ⟨hevals.le_one, harrays.le_one, fun i a ha => (hknown i).1.reads ha, ?_, ?_⟩
  · intro i c' hstep a
    obtain ⟨s, t, hact, rfl⟩ := hstep
    exact Act.mayFollow hact (hknown i) a
  · intro i c' hstep a ha
    obtain ⟨s, t, hact, rfl⟩ := hstep
    exact ((Act.frame hact hs (hknown i)).1.expanded a ha).2

theorem protocol_goldStart : Protocol goldRules priorOps 0 goldStart :=
  protocol_of_grown grown_new_goldEnding .start

end Searches

end Shogi.Mcts
