import ShogiEngine.Mate.DfpnProgress
import ShogiEngine.Mate.RouteGame
import ShogiEngine.Shogi.EvasionCount

/-!
# Soundness of the df-pn search

A proof number of zero says that the attacker wins, a disproof number of zero that he does not. The search keeps
these statements true at every node of its tree, however it is stopped or runs out of memory on its way.

## Main definitions

- `Leads`, `Grounded`: trees in which every such statement is true
- `Arena`: what has to be known of the boards of a search
- `Leaves`: what a search leaves at a node

## Main results

- `Grounded.summarize`: `SummarizeNode` keeps what is true
- `leaves_expandNode`, `leaves_visitChild`: so do `ExpandNode` and the search of a child
- `sound_searchNode`: so does `Search`
-/

namespace Shogi

namespace MateDfpnSolver

/-! ## Trees -/

/-- A child of a node: its move can be played, and a number of zero is true after it. Where play ends, the child
has no children of its own. -/
structure Leads (proof orNode : Bool) (x : Route) (c : DfpnNode) : Prop where
  plays : x.Plays orNode c.data.lastMove
  after : c.rel proof = 0 → HoldsAfter proof orNode (x.move c.data.lastMove)
  leaf : ¬(x.move c.data.lastMove).Fresh → c.children = []

/-- A mate in one has been found: the child with it decides the node. -/
def Decided (d : NodeData) (cs : List DfpnNode) : Prop := d.pn = 0 ∧ ∃ c ∈ cs, c.data.pn = 0 ∧ c.data.dn ≠ 0

/-- Trees in which the numbers of zero below the root are true. Where all the moves of a node matter, they are
among its children. -/
inductive Grounded (proof : Bool) : Bool → Route → DfpnNode → Prop
  | mk {orNode : Bool} {x : Route} {d : NodeData} {cs : List DfpnNode}
      (block : cs = [] ∨ cs.length = d.childNum ∧ d.childNum ≤ 254) (leads : ∀ c ∈ cs, Leads proof orNode x c)
      (complete : orNode = !proof → cs ≠ [] →
        (∀ m, x.Plays orNode m → ∃ c ∈ cs, c.data.lastMove = m) ∨ orNode = true ∧ Decided d cs)
      (children : ∀ c ∈ cs, Grounded proof (!orNode) (x.move c.data.lastMove) c) : Grounded proof orNode x (.mk d cs)

section Grounded

variable {proof orNode : Bool} {x : Route} {c c' n n' : DfpnNode} {d : NodeData} {i : Nat} {ms : MoveList}

theorem Grounded.leads (h : Grounded proof orNode x n) (hc : c ∈ n.children) : Leads proof orNode x c := by
  obtain ⟨-, h, -, -⟩ := h
  exact h c hc

theorem Grounded.child (h : Grounded proof orNode x n) (hc : c ∈ n.children) :
    Grounded proof (!orNode) (x.move c.data.lastMove) c := by
  obtain ⟨-, -, -, h⟩ := h
  exact h c hc

theorem Grounded.block (h : Grounded proof orNode x n) :
    n.children = [] ∨ n.children.length = n.data.childNum ∧ n.data.childNum ≤ 254 := by
  obtain ⟨h, -, -, -⟩ := h
  exact h

theorem Grounded.complete (h : Grounded proof orNode x n) (hor : orNode = !proof) (hcs : n.children ≠ []) :
    (∀ m, x.Plays orNode m → ∃ c ∈ n.children, c.data.lastMove = m) ∨
      orNode = true ∧ Decided n.data n.children := by
  obtain ⟨-, -, h, -⟩ := h
  exact h hor hcs

/-- A leaf that has not been expanded has no children. -/
theorem Grounded.leaf (h : Grounded proof orNode x n) (hn : n.data.childNum = notExpanded) : n.children = [] := by
  refine h.block.resolve_right fun hb => ?_
  have : n.data.childNum ≤ 254 := hb.2
  rw [hn] at this
  exact absurd this (by decide)

/-- The whole block is looked at. -/
theorem Grounded.take_eq (h : Grounded proof orNode x n) : n.children.take n.data.childNum = n.children := by
  obtain hnil | hb := h.block
  · rw [hnil, List.take_nil]
  · exact List.take_of_length_le hb.1.le

theorem grounded_of_leaf (hcs : n.children = []) : Grounded proof orNode x n := by
  obtain ⟨d, cs⟩ := n
  obtain rfl : cs = [] := hcs
  exact .mk (Or.inl rfl) (fun c hc => absurd hc List.not_mem_nil) (fun _ hno => absurd rfl hno)
    fun c hc => absurd hc List.not_mem_nil

/-- The other members of a node do not matter, unless it is decided. -/
theorem Grounded.withData (h : Grounded proof orNode x n) (hnum : d.childNum = n.data.childNum)
    (hdecided : orNode = true → Decided n.data n.children → Decided d n.children) :
    Grounded proof orNode x (n.withData d) := by
  obtain ⟨block, leads, complete, children⟩ := h
  refine .mk (hnum ▸ block) leads (fun hor hcs => ?_) children
  exact (complete hor hcs).imp_right fun h => ⟨h.1, hdecided h.1 h.2⟩

/-- A child of a node that is not decided is replaced. -/
theorem Grounded.set (h : Grounded proof orNode x n) (hn : n.data.pn ≠ 0) (hc : n.children[i]? = some c)
    (hlast : c'.data.lastMove = c.data.lastMove)
    (hafter : c'.rel proof = 0 → HoldsAfter proof orNode (x.move c.data.lastMove))
    (hleaf : ¬(x.move c.data.lastMove).Fresh → c'.children = [])
    (hc' : Grounded proof (!orNode) (x.move c.data.lastMove) c') :
    Grounded proof orNode x (n.withChildren (n.children.set i c')) := by
  have hmem : c ∈ n.children := List.mem_of_getElem? hc
  have hplays := (h.leads hmem).plays
  have hset : ∀ e ∈ n.children.set i c', e ∈ n.children ∨ e = c' := fun e he => List.mem_or_eq_of_mem_set he
  refine .mk ?_ (fun e he => ?_) (fun hor _ => Or.inl fun m hm => ?_) fun e he => ?_
  · refine h.block.imp (fun hnil => ?_) fun hb => ?_
    · rw [hnil, List.set_nil]
    · rw [List.length_set]
      exact hb
  · obtain he | rfl := hset e he
    · exact h.leads he
    · rw [← hlast] at hplays hafter hleaf
      exact ⟨hplays, hafter, hleaf⟩
  · have hall := (h.complete hor (List.ne_nil_of_mem hmem)).resolve_right fun hd => hn hd.2.1
    obtain ⟨e, he, rfl⟩ := hall m hm
    obtain ⟨j, hj⟩ := List.mem_iff_getElem?.mp he
    by_cases hij : i = j
    · subst hij
      obtain rfl : c = e := Option.some.inj (hc.symm.trans hj)
      refine ⟨c', List.mem_iff_getElem?.mpr ⟨i, ?_⟩, hlast⟩
      rw [List.getElem?_set_self (List.getElem?_eq_some_iff.mp hc).1]
    · exact ⟨e, List.mem_iff_getElem?.mpr ⟨j, by rw [List.getElem?_set_ne hij, hj]⟩, rfl⟩
  · obtain he | rfl := hset e he
    · exact h.child he
    · rw [hlast]
      exact hc'

/-! ## Summaries -/

theorem least_eq_zero {cs : List DfpnNode} (h : least orNode cs = 0) : ∃ c ∈ cs, c.rel orNode = 0 := by
  by_contra hno
  have hle : 1 ≤ least orNode cs := le_foldl_min _ (by decide) fun c hc =>
    Nat.one_le_iff_ne_zero.mpr fun h0 => hno ⟨c, hc, h0⟩
  omega

theorem opp_eq_rel (orNode : Bool) (c : DfpnNode) : c.opp orNode = c.rel (!orNode) := by
  cases orNode <;> rfl

/-- A sum of zero: every child is decided. -/
theorem total_eq_zero {cs : List DfpnNode} (h : min INF (total orNode cs) = 0) (hc : c ∈ cs) :
    c.rel (!orNode) = 0 := by
  have : INF = 4294967280 := rfl
  have htotal : total orNode cs = 0 := by omega
  rw [← opp_eq_rel]
  exact List.sum_eq_zero_iff.mp htotal _ (List.mem_map_of_mem hc)

/-- The numbers that a summary gives a node. -/
theorem rel_summary (proof orNode : Bool) (d : NodeData) (cs cs' : List DfpnNode) :
    (DfpnNode.mk (summaryOf orNode d cs) cs').rel proof =
      if proof = orNode then least orNode cs else min INF (total orNode cs) := by
  have hpn : (summaryOf orNode d cs).pn = (numbersOf orNode cs).1 := rfl
  have hdn : (summaryOf orNode d cs).dn = (numbersOf orNode cs).2 := rfl
  rw [DfpnNode.rel, DfpnNode.data, hpn, hdn, numbersOf_eq]
  cases proof <;> cases orNode <;> rfl

/-- A decided node stays decided. -/
theorem Decided.summary {cs : List DfpnNode} (h : Decided d cs) : Decided (summaryOf true d cs) cs := by
  obtain ⟨-, c, hc, hpn, hdn⟩ := h
  refine ⟨?_, c, hc, hpn, hdn⟩
  have hle : least true cs ≤ c.rel true := foldl_min_le _ hc INF
  have hpn' : (summaryOf true d cs).pn = least true cs := rel_summary true true d cs []
  have hzero : c.rel true = 0 := hpn
  omega

/-- The numbers of the children decide the node. -/
theorem Grounded.holds_of_summary (h : Grounded proof orNode x n) (hcs : n.children ≠ [])
    (hzero : (DfpnNode.mk (summaryOf orNode n.data n.children) n.children).rel proof = 0) : Holds proof orNode x := by
  rw [rel_summary] at hzero
  by_cases hproof : proof = orNode
  · -- one child is enough
    subst hproof
    rw [if_pos rfl] at hzero
    obtain ⟨c, hc, hrel⟩ := least_eq_zero hzero
    exact Holds.of_exists (h.leads hc).plays ((h.leads hc).after hrel)
  · -- all the moves have to be met
    rw [if_neg hproof] at hzero
    obtain rfl : proof = !orNode := by cases proof <;> cases orNode <;> first | rfl | exact absurd rfl hproof
    obtain hall | ⟨rfl, -, c, hc, -, hdn⟩ := h.complete (Bool.not_not orNode).symm hcs
    · refine Holds.of_forall fun m hm => ?_
      obtain ⟨c, hc, rfl⟩ := hall m hm
      exact (h.leads hc).after (total_eq_zero hzero hc)
    · exact absurd (total_eq_zero hzero hc) hdn

/-- `SummarizeNode` changes the numbers only. -/
theorem summarize_eq (h : summarizeNode orNode n = .ok n') :
    n'.children = n.children ∧ n'.data.lastMove = n.data.lastMove ∧ n'.data.childNum = n.data.childNum := by
  rw [summarizeNode] at h
  split at h
  · cases h
    exact ⟨rfl, rfl, rfl⟩
  · split at h
    · cases h
    · cases h
      exact ⟨rfl, rfl, rfl⟩

/-- `SummarizeNode` keeps what is true. -/
theorem Grounded.summarize (h : Grounded proof orNode x n) (hholds : n.rel proof = 0 → Holds proof orNode x)
    (hsum : summarizeNode orNode n = .ok n') :
    Grounded proof orNode x n' ∧ (n'.rel proof = 0 → Holds proof orNode x) := by
  rw [summarizeNode] at hsum
  split at hsum
  · cases hsum
    exact ⟨h, hholds⟩
  · next hnum =>
    split at hsum
    · cases hsum
    · next hlen =>
      cases hsum
      rw [h.take_eq]
      have hcs : n.children ≠ [] := by
        rintro hnil
        rw [hnil, List.length_nil] at hlen
        exact hnum (Or.inl (by omega))
      refine ⟨h.withData rfl ?_, h.holds_of_summary hcs⟩
      rintro rfl hd
      exact hd.summary

end Grounded

/-! ## Expansion -/

/-- What has to be known of the routes of a search. For a proof the moves of `FindMateInOne` have to mate. For a
disproof the checks have to fit into a block of children, and a checkmate must not be taken for a repetition. -/
structure Arena (env : Env) (proof : Bool) (P : Route → Prop) : Prop where
  playable : ∀ {x}, P x → x.board.Playable
  move : ∀ {x m}, P x → x.board.position.Legal m → P (x.move m)
  plays : ∀ {x m}, P x → env.findMateInOne x.board = some m → x.Plays true m
  mate : ∀ {x m}, proof = true → P x → env.findMateInOne x.board = some m →
    (x.move m).board.position.Checkmate
  few : ∀ {x}, proof = false → P x → x.board.generateCheckingMoves.length ≤ 254
  alone : ∀ {x m}, proof = false → P x → x.Plays true m → (x.move m).board.position.Checkmate →
    (x.move m).board.repetition = .loss ∨ (x.move m).Fresh

/-- The pool has room, the tree and the path are no larger than what has been taken from it, and the hashes are
those of the route. -/
structure Room (ply : Nat) (x : Route) (n : DfpnNode) (s : SearchState) : Prop where
  deep : ply + n.size ≤ s.pool.used
  used : s.pool.used ≤ s.pool.capacity
  capacity : s.pool.capacity ≤ 2000000
  path : s.pathHashes = x.path

/-- What a search leaves at a node. -/
structure Leaves (proof orNode : Bool) (x : Route) (n : DfpnNode) (s : SearchState) (n' : DfpnNode)
    (s' : SearchState) : Prop where
  grounded : Grounded proof orNode x n'
  holds : n'.rel proof = 0 → Holds proof orNode x
  lastMove : n'.data.lastMove = n.data.lastMove
  size : n'.size + s.pool.used ≤ n.size + s'.pool.used
  used : s'.pool.used ≤ s'.pool.capacity
  capacity : s'.pool.capacity ≤ 2000000
  path : s'.pathHashes = s.pathHashes

/-- The pool and the path have not changed. -/
structure SearchState.Still (s s' : SearchState) : Prop where
  pool : s'.pool = s.pool
  path : s'.pathHashes = s.pathHashes

section Expansion

variable {env : Env} {proof orNode : Bool} {P : Route → Prop} {x : Route} {b : ShogiBoard} {n n' n'' : DfpnNode}
  {m : Move} {ms : MoveList} {ply : Nat} {s s' s'' : SearchState}

theorem SearchState.Still.trans (h : s.Still s') (h' : s'.Still s'') : s.Still s'' :=
  ⟨h'.pool.trans h.pool, h'.path.trans h.path⟩

theorem still_shouldStop (env : Env) (s : SearchState) : s.Still (env.shouldStop s).2 := ⟨rfl, rfl⟩

theorem still_checksAmong (ms : MoveList) : s.Still (env.checksAmong b ms s).2 := by
  induction ms generalizing s with
  | nil => exact ⟨rfl, rfl⟩
  | cons m ms ih =>
    rw [Env.checksAmong]
    split
    · exact still_shouldStop env s
    · exact (still_shouldStop env s).trans ih

theorem still_moves (env : Env) (orNode : Bool) (b : ShogiBoard) (s : SearchState) :
    s.Still (if orNode then env.generateChecks b s else (b.generateLegalMoves, s)).2 := by
  cases orNode
  · exact ⟨rfl, rfl⟩
  · rw [if_pos rfl, Env.generateChecks]
    split
    · exact ⟨rfl, rfl⟩
    · exact still_checksAmong _

theorem Room.leaves (hroom : Room ply x n s) (h : Leaves proof orNode x n s n' s') : Room ply x n' s' := by
  have := hroom.deep
  have := h.size
  exact ⟨by omega, h.used, h.capacity, h.path.trans hroom.path⟩

theorem Leaves.trans (h : Leaves proof orNode x n s n' s') (h' : Leaves proof orNode x n' s' n'' s'') :
    Leaves proof orNode x n s n'' s'' := by
  have := h.size
  have := h'.size
  exact ⟨h'.grounded, h'.holds, h'.lastMove.trans h.lastMove, by omega, h'.used, h'.capacity, h'.path.trans h.path⟩

/-- The node has not changed. -/
theorem Leaves.refl (hroom : Room ply x n s) (h : Grounded proof orNode x n)
    (hholds : n.rel proof = 0 → Holds proof orNode x) : Leaves proof orNode x n s n s :=
  ⟨h, hholds, rfl, le_rfl, hroom.used, hroom.capacity, rfl⟩

theorem Room.still (h : Room ply x n s) (hs : s.Still s') : Room ply x n s' := by
  refine ⟨?_, ?_, ?_, hs.path.trans h.path⟩
  · rw [hs.pool]
    exact h.deep
  · rw [hs.pool]
    exact h.used
  · rw [hs.pool]
    exact h.capacity

theorem Leaves.before (h : Leaves proof orNode x n s' n' s'') (hs : s.Still s') : Leaves proof orNode x n s n' s'' := by
  refine ⟨h.grounded, h.holds, h.lastMove, ?_, h.used, h.capacity, h.path.trans hs.path⟩
  rw [← hs.pool]
  exact h.size

theorem Leaves.then (h : Leaves proof orNode x n s n' s') (hs : s'.Still s'') : Leaves proof orNode x n s n' s'' := by
  refine ⟨h.grounded, h.holds, h.lastMove, ?_, ?_, ?_, hs.path.trans h.path⟩
  · rw [hs.pool]
    exact h.size
  · rw [hs.pool]
    exact h.used
  · rw [hs.pool]
    exact h.capacity

theorem Room.ply_le (h : Room ply x n s) : ply ≤ 2000000 := by
  have := h.deep
  have := h.used
  have := h.capacity
  omega

/-- The numbers that stand for a lost cause are not zero. -/
theorem sub_ne_zero (h : ply ≤ 2000001) : INF - ply ≠ 0 := by
  have : INF = 4294967280 := rfl
  omega

/-- `set_mate` proves a node, and `set_nomate` disproves it. -/
theorem proof_of_setMate (hply : ply ≤ 2000001) (h : (n.setMate ply).rel proof = 0) : proof = true := by
  cases proof
  · exact absurd h (sub_ne_zero hply)
  · rfl

theorem proof_of_setNomate (hply : ply ≤ 2000001) (h : (n.setNomate ply).rel proof = 0) : proof = false := by
  cases proof
  · rfl
  · exact absurd h (sub_ne_zero hply)

theorem size_summarize (h : summarizeNode orNode n = .ok n') : n'.size = n.size := by
  rw [size_eq, size_eq (n := n), (summarize_eq h).1]

theorem Leaves.summarize (h : Leaves proof orNode x n s n' s') (hsum : summarizeNode orNode n' = .ok n'') :
    Leaves proof orNode x n s n'' s' := by
  obtain ⟨hgrounded, hholds⟩ := h.grounded.summarize h.holds hsum
  refine ⟨hgrounded, hholds, (summarize_eq hsum).2.1.trans h.lastMove, ?_, h.used, h.capacity, h.path⟩
  rw [size_summarize hsum]
  exact h.size

/-- What `NewNodes` leaves of the pool. -/
theorem newNodes_cases (p : Pool) (count : Nat) :
    p.newNodes count = (true, { p with used := p.used + count }) ∧ p.used + count ≤ p.capacity ∨
      p.newNodes count = (false, { p with exhausted := true }) := by
  by_cases h : p.used + count ≤ p.capacity
  · exact Or.inl ⟨newNodes_of_room h, h⟩
  · exact Or.inr (newNodes_exhausted (not_le.mp h))

/-- The shortcut for a mate in one. -/
theorem leaves_expandMate (harena : Arena env proof P) (hx : P x) (hroom : Room ply x n s) (hleaf : n.children = [])
    (hm : env.findMateInOne x.board = some m) :
    Leaves proof true x n s (Env.expandMate n m ply s).1 (Env.expandMate n m ply s).2 := by
  have hplays := harena.plays hx hm
  have hafter : proof = true → HoldsAfter proof true (x.move m) := by
    rintro rfl
    exact .of_checkmate (harena.mate rfl hx hm)
  have hholds : proof = true → Holds proof true x := by
    rintro rfl
    exact Holds.of_exists hplays (hafter rfl)
  have hply := hroom.ply_le
  have hnow : ply ≤ 2000001 := by omega
  have hnext : ply + 1 ≤ 2000001 := by omega
  have hsize := size_of_leaf hleaf
  let child : DfpnNode := (DfpnNode.fresh m).setMate (ply + 1)
  let leaf : DfpnNode := child.withData { child.data with childNum := 0 }
  have hchild : Grounded proof false (x.move m) leaf := grounded_of_leaf rfl
  rw [Env.expandMate]
  obtain ⟨hnew, hle⟩ | hnew := newNodes_cases s.pool 1 <;> rw [hnew]
  · refine ⟨.mk (Or.inr ⟨rfl, show 1 ≤ 254 by decide⟩) (fun c hc => ?_) (fun _ _ => Or.inr ⟨rfl, rfl, leaf, ?_⟩)
      fun c hc => ?_, fun hzero => hholds (proof_of_setMate (n := n) hnow hzero), rfl, ?_, hle,
      hroom.capacity, rfl⟩
    · rw [List.mem_singleton.mp hc]
      exact ⟨hplays, fun hzero => hafter (proof_of_setMate (n := child) hnext hzero), fun _ => rfl⟩
    · exact ⟨List.mem_singleton_self _, rfl, sub_ne_zero (by omega)⟩
    · rw [List.mem_singleton.mp hc]
      exact hchild
    · change 1 + 0 + 0 + s.pool.used ≤ n.size + (s.pool.used + 1)
      omega
  · refine ⟨grounded_of_leaf hleaf, fun hzero => hholds (proof_of_setMate (n := n) hnow hzero),
      rfl, ?_, hroom.used, hroom.capacity, rfl⟩
    change (DfpnNode.mk _ n.children).size + s.pool.used ≤ n.size + s.pool.used
    rw [size_eq, size_eq (n := n)]
    rfl

/-! ## The moves of a node -/

/-- The loop of `GenerateChecks` collects checks, and all of them if it is not stopped. -/
theorem mem_checksAmong (h : m ∈ (env.checksAmong b ms s).1) :
    m ∈ ms ∧ (b.doMove m).inCheck (b.doMove m).sideToMove = true := by
  induction ms generalizing s with
  | nil => exact absurd h List.not_mem_nil
  | cons m' ms ih =>
    rw [Env.checksAmong] at h
    split at h
    · exact absurd h List.not_mem_nil
    · dsimp only at h
      split at h
      · next hcheck =>
        obtain rfl | h := List.mem_cons.mp h
        · exact ⟨List.mem_cons_self, hcheck⟩
        · exact (ih h).imp_left (List.mem_cons_of_mem _)
      · exact (ih h).imp_left (List.mem_cons_of_mem _)

theorem checksAmong_eq (h : (env.shouldStop (env.checksAmong b ms s).2).1 = false) :
    (env.checksAmong b ms s).1 = ms.filter fun m => (b.doMove m).inCheck (b.doMove m).sideToMove := by
  induction ms generalizing s with
  | nil => rfl
  | cons m ms ih =>
    rw [Env.checksAmong] at h ⊢
    split at h
    · next hstop =>
      -- the request to stop is still there
      have := stopped_shouldStop hstop
      rw [Env.Stopped] at this
      rw [Env.shouldStop, this] at h
      cases h
    · next hstop =>
      rw [if_neg hstop, List.filter_cons, ← ih h]

/-- The moves of `GenerateChecks` are the checks, once each. -/
theorem generateChecks_spec (hb : b.Playable) (h : (env.shouldStop (env.generateChecks b s).2).1 = false) :
    (∀ m, b.position.Legal m ∧ (b.doMove m).position.InCheck (b.doMove m).sideToMove →
      m ∈ (env.generateChecks b s).1) ∧ (env.generateChecks b s).1.length ≤ b.generateCheckingMoves.length := by
  rw [Env.generateChecks] at h ⊢
  split at h
  · next hfast =>
    rw [if_pos hfast]
    exact ⟨fun m hm => hb.mem_checkingMoves.mpr hm, le_rfl⟩
  · next hfast =>
    rw [if_neg hfast, checksAmong_eq h]
    have hmem : ∀ m, m ∈ b.generateLegalMoves.filter (fun m => (b.doMove m).inCheck (b.doMove m).sideToMove) ↔
        m ∈ b.generateCheckingMoves := by
      intro m
      rw [List.mem_filter, ShogiBoard.mem_generateLegalMoves hb.consistent hb.kings, hb.mem_checkingMoves]
      exact and_congr_right fun hm => (hb.doMove hm).inCheck_iff
    refine ⟨fun m hm => (hmem m).mpr (hb.mem_checkingMoves.mpr hm), ?_⟩
    exact (List.subperm_of_subset (ShogiBoard.nodup_generateLegalMoves.filter _) fun m hm => (hmem m).mp hm).length_le

theorem mem_generateChecks (hb : b.Playable) (hm : m ∈ (env.generateChecks b s).1) :
    b.position.Legal m ∧ (b.doMove m).position.InCheck (b.doMove m).sideToMove := by
  rw [Env.generateChecks] at hm
  split at hm
  · exact hb.mem_checkingMoves.mp hm
  · obtain ⟨hmem, hcheck⟩ := mem_checksAmong hm
    have hlegal := (ShogiBoard.mem_generateLegalMoves hb.consistent hb.kings).mp hmem
    exact ⟨hlegal, (hb.doMove hlegal).inCheck_iff.mp hcheck⟩

/-- At an AND node the side to move is in check. -/
def Turned (orNode : Bool) (b : ShogiBoard) : Prop := orNode = false → b.inCheck b.sideToMove = true

/-- The moves that are expanded. Where all of them matter, they are there and fit into a block of children. -/
theorem moves_spec (harena : Arena env proof P) (hx : P x) (hturned : Turned orNode x.board) :
    let moves := if orNode then env.generateChecks x.board s else (x.board.generateLegalMoves, s)
    (∀ m ∈ moves.1, x.Plays orNode m) ∧ (orNode = !proof → (env.shouldStop moves.2).1 = false →
      (∀ m, x.Plays orNode m → m ∈ moves.1) ∧ moves.1.length ≤ 254) := by
  have hb := harena.playable hx
  cases orNode
  · have hmem : ∀ m, m ∈ x.board.generateLegalMoves ↔ x.board.position.Legal m := fun m =>
      ShogiBoard.mem_generateLegalMoves hb.consistent hb.kings
    refine ⟨fun m hm => ⟨(hmem m).mp hm, fun hno => by cases hno⟩, fun _ _ => ⟨fun m hm => (hmem m).mpr hm.1, ?_⟩⟩
    exact (ShogiBoard.length_generateLegalMoves_le hb.consistent hb.kings (hturned rfl)).trans (by decide)
  · refine ⟨fun m hm => ?_, fun hor hstop => ?_⟩
    · exact ⟨(mem_generateChecks hb hm).1, fun _ => (mem_generateChecks hb hm).2⟩
    · have hproof : proof = false := by cases proof <;> first | rfl | cases hor
      obtain ⟨hall, hlen⟩ := generateChecks_spec hb hstop
      exact ⟨fun m hm => hall m ⟨hm.1, hm.2 rfl⟩, hlen.trans (harena.few hproof hx)⟩

/-- The new children of a node. -/
theorem grounded_freshChildren (hms : ∀ m ∈ ms, x.Plays orNode m)
    (hall : orNode = !proof → (∀ m, x.Plays orNode m → m ∈ ms) ∧ ms.length ≤ 254) :
    Grounded proof orNode x ((n.withData { n.data with childNum := min ms.length 254 }).withChildren
      ((ms.take 254).map DfpnNode.fresh)) := by
  refine .mk (Or.inr ⟨?_, ?_⟩) (fun c hc => ?_) (fun hor _ => Or.inl fun m hm => ?_) fun c hc => ?_
  · change ((ms.take 254).map DfpnNode.fresh).length = min ms.length 254
    rw [List.length_map, List.length_take, min_comm]
  · change min ms.length 254 ≤ 254
    exact min_le_right _ _
  · obtain ⟨m, hm, rfl⟩ := List.mem_map.mp hc
    refine ⟨hms m (List.mem_of_mem_take hm), fun h => ?_, fun _ => rfl⟩
    cases proof <;> exact absurd h Nat.one_ne_zero
  · obtain ⟨hmem, hlen⟩ := hall hor
    refine ⟨.fresh m, List.mem_map_of_mem ?_, rfl⟩
    rw [List.take_of_length_le hlen]
    exact hmem m hm
  · obtain ⟨m, -, rfl⟩ := List.mem_map.mp hc
    exact grounded_of_leaf rfl

/-- Without a move the side to move has lost. -/
theorem holds_of_no_moves (hnone : ∀ m, ¬x.Plays orNode m) : Holds (!orNode) orNode x :=
  Holds.of_forall fun m hm => absurd hm (hnone m)

/-- The expansion from the generation of the moves on. -/
theorem leaves_expandMoves (harena : Arena env proof P) (hx : P x) (hturned : Turned orNode x.board)
    (hground : Grounded proof orNode x n) (hholds : n.rel proof = 0 → Holds proof orNode x) (hroom : Room ply x n s)
    (hleaf : n.children = []) (h : env.expandMoves orNode x.board n ply s = .ok (n', s')) :
    Leaves proof orNode x n s n' s' := by
  have hply : ply ≤ 2000001 := le_trans hroom.ply_le (by decide)
  have hmoves := still_moves env orNode x.board s
  obtain ⟨hplays, hall⟩ := moves_spec (s := s) harena hx hturned
  rw [Env.expandMoves] at h
  generalize (if orNode then env.generateChecks x.board s else (x.board.generateLegalMoves, s)) = moves at *
  have hstill : s.Still (env.shouldStop moves.2).2 := hmoves.trans (still_shouldStop env _)
  dsimp only at h
  split at h
  · cases h
    exact (Leaves.refl hroom hground hholds).then hstill
  · next hstop =>
    have hstop : (env.shouldStop moves.2).1 = false := Bool.not_eq_true _ ▸ hstop
    generalize (env.shouldStop moves.2).2 = t at hstill h
    refine .before ?_ hstill
    have hroom := hroom.still hstill
    split at h
    · next hempty =>
      -- no move is left
      cases h
      have hnil : moves.1 = [] := List.isEmpty_iff.mp hempty
      have hlost : orNode = !proof → Holds proof orNode x := by
        intro hor
        obtain rfl : proof = !orNode := by rw [hor, Bool.not_not]
        refine holds_of_no_moves fun m hm => ?_
        have := (hall hor hstop).1 m hm
        rw [hnil] at this
        exact absurd this List.not_mem_nil
      refine ⟨grounded_of_leaf ?_, fun hzero => hlost ?_, ?_, le_of_eq ?_, hroom.used, hroom.capacity, rfl⟩
      · cases orNode <;> exact hleaf
      · cases orNode
        · rw [proof_of_setMate (n := n) hply hzero]
          rfl
        · rw [proof_of_setNomate (n := n) hply hzero]
          rfl
      · cases orNode <;> rfl
      · cases orNode <;> rw [size_eq, size_eq (n := n)] <;> rfl
    · obtain ⟨hnew, hle⟩ | hnew := newNodes_cases t.pool moves.1.length <;> rw [hnew] at h
      · -- the children are allocated
        simp only [Bool.not_true, Bool.false_eq_true, if_false] at h
        cases hsum : summarizeNode orNode ((n.withData { n.data with childNum := min moves.1.length 254 }).withChildren
          ((moves.1.take 254).map DfpnNode.fresh)) with
        | error e =>
          rw [hsum] at h
          cases h
        | ok r =>
          rw [hsum] at h
          cases h
          have hgrounded := grounded_freshChildren (n := n) hplays fun hor => hall hor hstop
          refine Leaves.summarize ⟨hgrounded, hholds, rfl, ?_, hle, hroom.capacity, rfl⟩ hsum
          change DfpnNode.sizes ((moves.1.take 254).map DfpnNode.fresh) + t.pool.used ≤
            n.size + (t.pool.used + moves.1.length)
          rw [sizes_fresh, List.length_take]
          omega
      · -- the pool is exhausted
        simp only [Bool.not_false, if_true] at h
        cases h
        exact ⟨hground, hholds, rfl, le_rfl, hroom.used, hroom.capacity, rfl⟩

/-- `ExpandNode` keeps what is true. -/
theorem leaves_expandNode (harena : Arena env proof P) (hx : P x) (hturned : Turned orNode x.board)
    (hground : Grounded proof orNode x n) (hholds : n.rel proof = 0 → Holds proof orNode x) (hroom : Room ply x n s)
    (hleaf : n.children = []) (h : env.expandNode orNode x.board n ply s = .ok (n', s')) :
    Leaves proof orNode x n s n' s' := by
  have hfirst := still_shouldStop env s
  rw [Env.expandNode] at h
  dsimp only at h
  split at h
  · cases h
    exact (Leaves.refl hroom hground hholds).then hfirst
  · split at h
    · next hor =>
      subst hor
      have hsecond := hfirst.trans (still_shouldStop env _)
      split at h
      · cases h
        exact (Leaves.refl hroom hground hholds).then hsecond
      · refine .before ?_ hsecond
        have hroom := hroom.still hsecond
        cases hm : env.findMateInOne x.board with
        | none =>
          rw [hm] at h
          exact leaves_expandMoves harena hx hturned hground hholds hroom hleaf h
        | some m =>
          rw [hm, Option.elim_some] at h
          have hmate := leaves_expandMate harena hx hroom hleaf hm
          rw [Except.ok.inj h] at hmate
          exact hmate
    · refine .before ?_ hfirst
      exact leaves_expandMoves harena hx hturned hground hholds (hroom.still hfirst) hleaf h

end Expansion

/-! ## The search -/

/-- A search of nodes of one kind that keeps what is true. -/
def Sound (proof : Bool) (P : Route → Prop) (orNode : Bool) (ply : Nat)
    (sub : ShogiBoard → DfpnNode → Nat → Nat → SearchState → Except Halt (DfpnNode × SearchState)) : Prop :=
  ∀ {x n secondPn secondDn s n' s'}, P x → Turned orNode x.board → Grounded proof orNode x n →
    (n.rel proof = 0 → Holds proof orNode x) → Room ply x n s →
    sub x.board n secondPn secondDn s = .ok (n', s') → Leaves proof orNode x n s n' s'

section Search

variable {env : Env} {proof orNode : Bool} {P : Route → Prop} {x : Route} {n n' c c' : DfpnNode}
  {sel : Selection} {ply secondPn secondDn i : Nat} {s s' : SearchState} {r : Bool × DfpnNode × SearchState}
  {sub : ShogiBoard → DfpnNode → Nat → Nat → SearchState → Except Halt (DfpnNode × SearchState)}

/-- The other side answers a check. -/
theorem turned_move {m : Move} (hb : x.board.Playable) (h : x.Plays orNode m) : Turned (!orNode) (x.move m).board := by
  intro hor
  exact (hb.doMove h.1).inCheck_iff.mpr (h.2 (by simpa using hor))

/-- A child is below its node. -/
theorem Room.deep_child (h : Room ply x n s) (hc : c ∈ n.children) : ply + 1 + c.size ≤ s.pool.used := by
  have := h.deep
  have := size_lt hc
  omega

/-- A child is replaced. -/
theorem leaves_set (hground : Grounded proof orNode x n) (hholds : n.rel proof = 0 → Holds proof orNode x)
    (hn : n.data.pn ≠ 0) (hc : n.children[i]? = some c) (hlast : c'.data.lastMove = c.data.lastMove)
    (hafter : c'.rel proof = 0 → HoldsAfter proof orNode (x.move c.data.lastMove))
    (hleaf : ¬(x.move c.data.lastMove).Fresh → c'.children = [])
    (hc' : Grounded proof (!orNode) (x.move c.data.lastMove) c')
    (hsize : c'.size + s.pool.used ≤ c.size + s'.pool.used) (hused : s'.pool.used ≤ s'.pool.capacity)
    (hcapacity : s'.pool.capacity ≤ 2000000) (hpath : s'.pathHashes = s.pathHashes) :
    Leaves proof orNode x n s (n.withChildren (n.children.set i c')) s' := by
  refine ⟨hground.set hn hc hlast hafter hleaf hc', hholds, rfl, ?_, hused, hcapacity, hpath⟩
  have : DfpnNode.sizes (n.children.set i c') + c.size = DfpnNode.sizes n.children + c'.size := sizes_set hc
  rw [size_eq, size_eq (n := n)]
  change DfpnNode.sizes (n.children.set i c') + _ ≤ _
  omega

/-- A child where play ends is settled without a search. -/
theorem leaves_settle {d : NodeData} (hground : Grounded proof orNode x n)
    (hholds : n.rel proof = 0 → Holds proof orNode x) (hn : n.data.pn ≠ 0) (hroom : Room ply x n s)
    (hc : n.children[i]? = some c) (hlast : d.lastMove = c.data.lastMove)
    (hend : ¬(x.move c.data.lastMove).Fresh)
    (hafter : (c.withData d).rel proof = 0 → HoldsAfter proof orNode (x.move c.data.lastMove)) :
    Leaves proof orNode x n s (n.withChildren (n.children.set i (c.withData d))) s := by
  have hleaf := (hground.leads (List.mem_of_getElem? hc)).leaf hend
  refine leaves_set hground hholds hn hc hlast hafter (fun _ => hleaf) (grounded_of_leaf hleaf) (le_of_eq ?_)
    hroom.used hroom.capacity rfl
  rw [size_withData]

/-- A computation that goes on after another one has returned. -/
theorem Halt.bind_ok {α β : Type} {a : Except Halt α} {f : α → Except Halt β} {y : β} (h : a.bind f = .ok y) :
    ∃ z, a = .ok z ∧ f z = .ok y := by
  cases a with
  | error e => cases h
  | ok z => exact ⟨z, rfl, h⟩

theorem Halt.map_ok {α β : Type} {a : Except Halt α} {f : α → β} {y : β} (h : a.map f = .ok y) :
    ∃ z, a = .ok z ∧ f z = y := by
  cases a with
  | error e => cases h
  | ok z => exact ⟨z, rfl, Except.ok.inj h⟩

/-- A repetition gives a child the number of the verdict for which it is decided. -/
theorem proof_of_settled {rep : RepetitionResult} (hply : ply ≤ 2000001)
    (hzero : (Env.settled orNode c ply rep).rel proof = 0) :
    (proof = true ↔ rep = if orNode then .loss else .win) := by
  by_cases hrep : rep = if orNode then .loss else .win
  · rw [Env.settled, if_pos hrep] at hzero
    exact iff_of_true (proof_of_setMate (n := c) hply hzero) hrep
  · rw [Env.settled, if_neg hrep] at hzero
    refine iff_of_false (fun h => ?_) hrep
    rw [proof_of_setNomate (n := c) hply hzero] at h
    cases h

theorem lastMove_settled {rep : RepetitionResult} :
    (Env.settled orNode c ply rep).data.lastMove = c.data.lastMove := by
  by_cases hrep : rep = if orNode then .loss else .win
  · rw [Env.settled, if_pos hrep]
    rfl
  · rw [Env.settled, if_neg hrep]
    rfl

/-- Where play ends without a win, a disproof is true: no checkmate is among the positions that come back. -/
theorem holdsAfter_of_end (harena : Arena env proof P) (hx : P x) {m : Move} (hproof : proof = false)
    (hplays : x.Plays orNode m) (hend : ¬(x.move m).Fresh)
    (hrep : (x.move m).board.repetition ≠ if orNode then .loss else .win) : HoldsAfter proof orNode (x.move m) := by
  subst hproof
  refine .of_not_fresh hend hrep fun hor hmate => ?_
  subst hor
  obtain hloss | hfresh := harena.alone rfl hx hplays hmate
  · exact hrep hloss
  · exact hend hfresh

/-- The search of one child keeps what is true. -/
theorem leaves_visitChild (harena : Arena env proof P) (hx : P x) (hsub : Sound proof P (!orNode) (ply + 1) sub)
    (hground : Grounded proof orNode x n) (hholds : n.rel proof = 0 → Holds proof orNode x) (hn : n.data.pn ≠ 0)
    (hroom : Room ply x n s) (h : env.visitChild sub orNode x.board ply n sel s = .ok r) :
    Leaves proof orNode x n s r.2.1 r.2.2 := by
  rw [Env.visitChild] at h
  cases hc : n.children[sel.index]? with
  | none =>
    rw [hc] at h
    cases h
  | some c =>
    rw [hc, Option.elim_some] at h
    have hmem : c ∈ n.children := List.mem_of_getElem? hc
    have hleads := hground.leads hmem
    have hdeep := hroom.deep_child hmem
    have hply : ply + 1 ≤ 2000001 := by
      have := hroom.ply_le
      omega
    dsimp only at h
    split at h
    · next hrep =>
      -- the position has been repeated
      obtain ⟨n', hsum, rfl⟩ := Halt.map_ok h
      have hend : ¬(x.move c.data.lastMove).Fresh := fun hfresh => hrep hfresh.1
      obtain ⟨heq, -⟩ := settled_eq orNode c (ply + 1)
        ((x.board.doMove c.data.lastMove).checkRepetition kRepetitionLookbackPly).1
      have hafter : (Env.settled orNode c (ply + 1)
          ((x.board.doMove c.data.lastMove).checkRepetition kRepetitionLookbackPly).1).rel proof = 0 →
          HoldsAfter proof orNode (x.move c.data.lastMove) := by
        intro hzero
        have hdecides := proof_of_settled hply hzero
        cases proof
        · exact holdsAfter_of_end harena hx rfl hleads.plays hend fun hloss =>
            Bool.false_ne_true (hdecides.mpr hloss)
        · exact .of_repetition (hdecides.mp rfl)
      rw [heq] at hsum hafter
      exact ((leaves_settle hground hholds hn hroom hc lastMove_settled hend hafter).summarize hsum).then ⟨rfl, rfl⟩
    · next hrep =>
      have hrep : (x.move c.data.lastMove).board.repetition = .none := not_not.mp hrep
      split at h
      · next hpath =>
        -- the board is on the path already
        obtain ⟨n', hsum, rfl⟩ := Halt.map_ok h
        rw [hroom.path] at hpath
        have hend : ¬(x.move c.data.lastMove).Fresh := fun hfresh => hfresh.2 (List.contains_iff_mem.mp hpath)
        refine ((leaves_settle hground hholds hn hroom hc ?_ hend fun hzero => ?_).summarize hsum).then ⟨rfl, rfl⟩
        · rfl
        · have hproof : proof = false := proof_of_setNomate (n := c) hply hzero
          refine holdsAfter_of_end harena hx hproof hleads.plays hend ?_
          rw [hrep]
          cases orNode <;> exact fun h => by cases h
      · next hpath =>
        -- the child is searched
        obtain ⟨⟨c', s'⟩, hsearch, h⟩ := Halt.bind_ok h
        have hfresh : (x.move c.data.lastMove).Fresh := by
          refine ⟨hrep, fun hmem => hpath ?_⟩
          rw [hroom.path]
          exact List.contains_iff_mem.mpr hmem
        have hchild : Room (ply + 1) (x.move c.data.lastMove) c
            { s with pathHashes := (x.board.doMove c.data.lastMove).hash :: s.pathHashes } :=
          ⟨hdeep, hroom.used, hroom.capacity, congrArg _ hroom.path⟩
        have hleaves := hsub (harena.move hx hleads.plays.1) (turned_move (harena.playable hx) hleads.plays)
          (hground.child hmem) (fun hzero => (holdsAfter_iff hfresh).mp (hleads.after hzero)) hchild hsearch
        have hafter : c'.rel proof = 0 → HoldsAfter proof orNode (x.move c.data.lastMove) := fun hzero =>
          (holdsAfter_iff hfresh).mpr (hleaves.holds hzero)
        have hset : Leaves proof orNode x n s (n.withChildren (n.children.set sel.index c'))
            { s' with pathHashes := s'.pathHashes.tail } := by
          refine leaves_set hground hholds hn hc hleaves.lastMove hafter (fun hend => absurd hfresh hend)
            hleaves.grounded hleaves.size hleaves.used hleaves.capacity ?_
          rw [hleaves.path]
          rfl
        dsimp only at h
        split at h
        · cases h
          exact hset.then ⟨rfl, rfl⟩
        · obtain ⟨n', hsum, rfl⟩ := Halt.map_ok h
          exact (hset.summarize hsum).then ⟨rfl, rfl⟩

/-- The loop of `Search` keeps what is true. -/
theorem leaves_searchLoop (harena : Arena env proof P) (hx : P x) (hsub : Sound proof P (!orNode) (ply + 1) sub)
    {fuel : Nat} (hground : Grounded proof orNode x n) (hholds : n.rel proof = 0 → Holds proof orNode x)
    (hroom : Room ply x n s)
    (h : env.searchLoop sub orNode x.board ply secondPn secondDn fuel n s = .ok (n', s')) :
    Leaves proof orNode x n s n' s' := by
  induction fuel generalizing n s with
  | zero => cases h
  | succ fuel ih =>
    have hstill := still_shouldStop env s
    rw [Env.searchLoop] at h
    split at h
    · next hgo =>
      dsimp only at h
      split at h
      · cases h
        exact (Leaves.refl hroom hground hholds).then hstill
      · obtain ⟨sel, hsel, h⟩ := Halt.bind_ok h
        cases sel with
        | none =>
          cases h
          exact (Leaves.refl hroom hground hholds).then hstill
        | some sel =>
          rw [Option.elim_some] at h
          obtain ⟨r, hvisit, h⟩ := Halt.bind_ok h
          have hleaves := (leaves_visitChild harena hx hsub hground hholds hgo.2.2.1 (hroom.still hstill)
            hvisit).before hstill
          have hpass : Leaves proof orNode x n s r.2.1
              (Env.recordPass orNode n secondPn secondDn (env.shouldStop s).2 r.1 r.2.2) := hleaves.then ⟨rfl, rfl⟩
          split at h
          · cases h
            exact hpass
          · exact hpass.trans (ih hpass.grounded hpass.holds (hroom.leaves hpass) h)
    · cases h
      exact .refl hroom hground hholds

/-- `Search` keeps what is true. -/
theorem sound_searchNode (harena : Arena env proof P) (fuel : Nat) (orNode : Bool) (ply : Nat) :
    Sound proof P orNode ply fun b n secondPn secondDn s => env.searchNode fuel orNode b n secondPn secondDn ply s := by
  induction fuel generalizing orNode ply with
  | zero =>
    intro x n secondPn secondDn s n' s' _ _ _ _ _ h
    cases h
  | succ fuel ih =>
    intro x n secondPn secondDn s n' s' hx hturned hground hholds hroom h
    have hstill := still_shouldStop env s
    dsimp only at h
    rw [Env.searchNode] at h
    dsimp only at h
    split at h
    · cases h
      exact (Leaves.refl hroom hground hholds).then hstill
    · refine .before ?_ hstill
      have hroom := hroom.still hstill
      split at h
      · next hn =>
        -- a leaf is expanded
        obtain ⟨r, hexpand, h⟩ := Halt.bind_ok h
        have hleaves := leaves_expandNode harena hx hturned hground hholds hroom (hground.leaf hn) hexpand
        split at h
        · cases h
          exact hleaves.then ⟨rfl, rfl⟩
        · obtain ⟨n', hsum, heq⟩ := Halt.map_ok h
          cases heq
          exact (hleaves.summarize hsum).then ⟨rfl, rfl⟩
      · exact leaves_searchLoop harena hx (ih (!orNode) (ply + 1)) hground hholds hroom h

end Search

end MateDfpnSolver

end Shogi
