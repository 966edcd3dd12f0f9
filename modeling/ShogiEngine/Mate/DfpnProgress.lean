import ShogiEngine.Mate.DfpnTree

/-!
# Progress of the df-pn search

Every pass of the search loop settles a child or expands a leaf, so that the search ends.

## Main definitions

- `Pass.Good`: what a pass finds and does
- `Env.potential`: what every pass decreases
- `Ready`, `Advanced`: before and after the search of a node

## Main results

- `searchNode_spec`: the search of a node returns, and has made progress unless it was stopped
- `Env.search_progress`: the same of a whole search, with all of its passes
-/

namespace Shogi

namespace MateDfpnSolver

/-- A pass finds a tree with its children and numbers, selects an open child with numbers below the
thresholds, and makes progress unless the search is stopped or the pool is exhausted. -/
structure Pass.Good (p : Pass) : Prop where
  tree : Everywhere Numbered p.node
  selected : ∃ sel c, selectBestChild p.orNode p.node p.secondPn p.secondDn = .ok (some sel) ∧
    p.node.children[sel.index]? = some c ∧ c.Open ∧ c.data.pn < sel.secondPn ∧ c.data.dn < sel.secondDn
  progress : p.before < p.after ∨ p.ended = true

/-! ## Requests to stop -/

theorem StopAnswers.later (a : StopAnswers) {i j : Nat} (h : a.answer i = true) (hij : i ≤ j) :
    a.answer j = true := by
  induction hij with
  | refl => exact h
  | step _ ih => exact a.sticky _ ih

/-- `ShouldStop` will answer yes. -/
def Env.Stopped (env : Env) (s : SearchState) : Prop := env.stop.answer s.stopReads = true

/-- Only `ShouldStop` has been asked. -/
structure SearchState.Asked (s s' : SearchState) : Prop where
  reads : s.stopReads ≤ s'.stopReads
  pool : s'.pool = s.pool
  searched : s'.nodesSearched = s.nodesSearched
  events : s'.events = s.events
  passes : s'.passes = s.passes

section Asked

variable {env : Env} {s s' s'' : SearchState}

theorem SearchState.Asked.refl (s : SearchState) : s.Asked s := ⟨le_rfl, rfl, rfl, rfl, rfl⟩

theorem SearchState.Asked.trans (h : s.Asked s') (h' : s'.Asked s'') : s.Asked s'' :=
  ⟨h.reads.trans h'.reads, h'.pool.trans h.pool, h'.searched.trans h.searched,
    h'.events.trans h.events, h'.passes.trans h.passes⟩

theorem Env.Stopped.later (h : env.Stopped s) (hr : s.stopReads ≤ s'.stopReads) : env.Stopped s' :=
  env.stop.later h hr

theorem asked_shouldStop (env : Env) : s.Asked (env.shouldStop s).2 := ⟨Nat.le_succ _, rfl, rfl, rfl, rfl⟩

theorem stopped_shouldStop (h : (env.shouldStop s).1 = true) : env.Stopped (env.shouldStop s).2 :=
  env.stop.sticky _ h

theorem asked_checksAmong (b : ShogiBoard) (ms : MoveList) : s.Asked (env.checksAmong b ms s).2 := by
  induction ms generalizing s with
  | nil => exact SearchState.Asked.refl _
  | cons m ms ih =>
    rw [Env.checksAmong]
    split
    · exact asked_shouldStop env
    · exact (asked_shouldStop env).trans ih

theorem asked_generateChecks (b : ShogiBoard) : s.Asked (env.generateChecks b s).2 := by
  rw [Env.generateChecks]
  split
  · exact SearchState.Asked.refl _
  · exact asked_checksAmong b _

end Asked

/-! ## What a search keeps -/

/-- The pool is one of the source's sizes, and the passes so far are good. -/
structure Valid (s : SearchState) : Prop where
  used : s.pool.used ≤ s.pool.capacity
  capacity : s.pool.capacity ≤ 2000000
  passes : ∀ p ∈ s.passes, p.Good

/-- What every pass decreases: an expansion opens at most 254 leaves. -/
def Env.potential (env : Env) (n : DfpnNode) (s : SearchState) : Nat :=
  (env.nodesLimit - s.nodesSearched) * 256 + n.unsettled

/-- What a search that has not been stopped leaves. -/
structure Kept (env : Env) (orNode : Bool) (n : DfpnNode) (s : SearchState) (n' : DfpnNode)
    (s' : SearchState) : Prop where
  tree : Ok orNode n'
  size : n'.size + s.pool.used ≤ n.size + s'.pool.used
  potential : env.potential n' s' ≤ env.potential n s
  events : s.events ≤ s'.events
  memory : s.pool.outOfMemory = true → s'.pool.outOfMemory = true

/-- What it leaves when it has made progress. -/
structure Advanced (env : Env) (orNode : Bool) (n : DfpnNode) (s : SearchState) (n' : DfpnNode)
    (s' : SearchState) : Prop extends Kept env orNode n s n' s' where
  less : env.potential n' s' < env.potential n s
  progress : s.events < s'.events ∨ s'.pool.outOfMemory = true

/-- What every search leaves, stopped or not. -/
structure Returned (s : SearchState) (n' : DfpnNode) (s' : SearchState) : Prop where
  reads : s.stopReads ≤ s'.stopReads
  valid : Valid s'
  tree : Everywhere WellFormed n'

/-- An open node that is searched. -/
structure Ready (env : Env) (orNode : Bool) (n : DfpnNode) (secondPn secondDn ply : Nat)
    (s : SearchState) : Prop where
  valid : Valid s
  tree : Ok orNode n
  live : n.Open
  pn : n.data.pn < secondPn
  dn : n.data.dn < secondDn
  room : ply + n.size ≤ s.pool.used
  memory : s.pool.outOfMemory = false
  searched : s.nodesSearched < env.nodesLimit

section Kept

variable {env : Env} {orNode : Bool} {n n' n'' : DfpnNode} {s s' s'' : SearchState} {d : NodeData}
  {cs : List DfpnNode} {ply secondPn secondDn : Nat}

theorem Valid.asked (h : Valid s) (ha : s.Asked s') : Valid s' := by
  constructor
  · rw [ha.pool]
    exact h.used
  · rw [ha.pool]
    exact h.capacity
  · rw [ha.passes]
    exact h.passes

theorem Valid.small (h : Valid s) (hr : ply + n.size ≤ s.pool.used) : n.size ≤ 2000000 := by
  have := h.used
  have := h.capacity
  omega

theorem Ok.wellFormed (h : Ok orNode n) (small : n.size ≤ 2000000) : Everywhere WellFormed n :=
  (h.numbered (by omega)).imp Numbered.wellFormed

theorem potential_asked (ha : s.Asked s') : env.potential n s' = env.potential n s := by
  rw [Env.potential, Env.potential, ha.searched]

theorem Kept.refl (h : Ok orNode n) : Kept env orNode n s n s := ⟨h, le_rfl, le_rfl, le_rfl, id⟩

/-- A pass and the passes after it. -/
theorem Advanced.trans (h : Advanced env orNode n s n' s') (h' : Kept env orNode n' s' n'' s'') :
    Advanced env orNode n s n'' s'' := by
  refine ⟨⟨h'.tree, ?_, h'.potential.trans h.potential, h.events.trans h'.events,
    fun hm => h'.memory (h.memory hm)⟩, h'.potential.trans_lt h.less, ?_⟩
  · have := h.size
    have := h'.size
    omega
  · exact h.progress.imp (fun hp => hp.trans_le h'.events) h'.memory

/-- `SummarizeNode` at a node whose children are there. -/
theorem summarize_inner (orNode : Bool) (pos : 1 ≤ n.data.childNum) (small : n.data.childNum ≤ 254)
    (length : n.children.length = n.data.childNum) (children : ∀ c ∈ n.children, Ok (!orNode) c) :
    ∃ n', summarizeNode orNode n = .ok n' ∧ Ok orNode n' ∧ n'.children = n.children ∧
      n'.data.childNum = n.data.childNum := by
  have hnot : ¬ (n.data.childNum = 0 ∨ n.data.childNum = notExpanded) := by
    have : notExpanded = 255 := rfl
    omega
  refine ⟨n.withData (summaryOf orNode n.data n.children), ?_, ?_, rfl, rfl⟩
  · rw [summarizeNode, if_neg hnot, if_neg (by omega), List.take_of_length_le length.le]
  · exact .inner pos small length children rfl

/-- `SummarizeNode` at a tree of the search. -/
theorem summarize_ok (h : Ok orNode n) :
    ∃ n', summarizeNode orNode n = .ok n' ∧ Ok orNode n' ∧ n'.children = n.children ∧
      n'.data.childNum = n.data.childNum := by
  by_cases hn : n.data.childNum = 0 ∨ n.data.childNum = notExpanded
  · exact ⟨n, by rw [summarizeNode, if_pos hn], h, rfl, rfl⟩
  obtain ⟨-, -, childNum⟩ | ⟨block, children, -⟩ | ⟨pos, small, length, children, -⟩ := h
  · exact absurd (Or.inr childNum) hn
  · obtain ⟨hpos, length⟩ := block.resolve_left fun hb => hn hb.1
    exact summarize_inner orNode hpos.1 hpos.2 length children
  · exact summarize_inner orNode pos small length children

end Kept

/-! ## Expansion -/

/-- What the expansion of a leaf leaves. -/
structure Expansion (env : Env) (orNode : Bool) (s : SearchState) (n' : DfpnNode) (s' : SearchState) :
    Prop where
  reads : s.stopReads ≤ s'.stopReads
  tree : Ok orNode n'
  searched : s'.nodesSearched = s.nodesSearched
  events : s'.events = s.events
  passes : s'.passes = s.passes
  capacity : s'.pool.capacity = s.pool.capacity
  used : s'.pool.used ≤ s'.pool.capacity
  size : n'.size + s.pool.used ≤ s'.pool.used
  unsettled : DfpnNode.unsettleds n'.children ≤ 254
  expanded : n'.data.childNum ≠ notExpanded ∨ env.Stopped s' ∨ s'.pool.outOfMemory = true

section Expansion

variable {env : Env} {orNode : Bool} {n : DfpnNode} {s s' : SearchState} {ply : Nat} {m : Move}
  {ms : MoveList} {b : ShogiBoard}

theorem infinite_sub (h : ply ≤ 2000001) : Infinite (INF - ply) := by
  have : INF = 4294967280 := rfl
  exact ⟨by omega, Nat.sub_le _ _⟩

theorem solved_setMate (h : ply ≤ 2000001) : Solved (n.setMate ply).data.pn (n.setMate ply).data.dn :=
  Or.inl ⟨rfl, infinite_sub h⟩

theorem solved_setNomate (h : ply ≤ 2000001) :
    Solved (n.setNomate ply).data.pn (n.setNomate ply).data.dn :=
  Or.inr ⟨rfl, infinite_sub h⟩

theorem ok_fresh (m : Move) : Ok orNode (.fresh m) := .fresh rfl rfl rfl

theorem size_of_leaf (h : n.children = []) : n.size = 0 := by
  rw [size_eq, h, DfpnNode.sizes]

theorem newNodes_of_room {p : Pool} {count : Nat} (h : p.used + count ≤ p.capacity) :
    p.newNodes count = (true, { p with used := p.used + count }) := by
  rw [Pool.newNodes, if_neg (by omega)]

theorem newNodes_exhausted {p : Pool} {count : Nat} (h : p.capacity < p.used + count) :
    p.newNodes count = (false, { p with exhausted := true }) := by
  rw [Pool.newNodes, if_pos h]

theorem lt_of_outOfMemory {p : Pool} (h : p.outOfMemory = false) : p.used < p.capacity := by
  rw [Pool.outOfMemory, Bool.or_eq_false_iff, decide_eq_false_iff_not] at h
  omega

/-- A leaf that is left as it was. -/
theorem Expansion.unchanged (h : Ok orNode n) (hleaf : n.children = []) (hv : Valid s) (ha : s.Asked s')
    (hs : env.Stopped s') : Expansion env orNode s n s' := by
  refine ⟨ha.reads, h, ha.searched, ha.events, ha.passes, by rw [ha.pool], by rw [ha.pool]; exact hv.used,
    ?_, ?_, Or.inr (Or.inl hs)⟩
  · rw [size_of_leaf hleaf, ha.pool]
    omega
  · rw [hleaf, DfpnNode.unsettleds]
    omega

/-- The mate in one; there is room for its child because the pool was not exhausted. -/
theorem expandMate_spec (hv : Valid s) (hm : s.pool.outOfMemory = false) (hply : ply ≤ s.pool.used) :
    Expansion env orNode s (Env.expandMate n m ply s).1 (Env.expandMate n m ply s).2 := by
  have hroom := lt_of_outOfMemory hm
  have hcapacity := hv.capacity
  let child : DfpnNode := (DfpnNode.fresh m).setMate (ply + 1)
  let leaf : DfpnNode := child.withData { child.data with childNum := 0 }
  have hleaf : Ok (!orNode) leaf := by
    refine .closed (Or.inl ⟨Or.inl rfl, rfl⟩) (fun c hc => absurd hc List.not_mem_nil) ?_
    exact Or.inl ⟨rfl, infinite_sub (by omega)⟩
  have hexpand : Env.expandMate n m ply s =
      (.mk { (n.setMate ply).data with mateDistance := 1, childNum := 1 } [leaf],
        { s with pool := { s.pool with used := s.pool.used + 1 } }) := by
    rw [Env.expandMate, newNodes_of_room hroom]
    rfl
  rw [hexpand]
  refine ⟨le_rfl, ?_, rfl, rfl, rfl, rfl, hroom, ?_, ?_,
    Or.inl (show 1 ≠ notExpanded by decide)⟩
  · refine .closed (Or.inr ⟨⟨le_rfl, show 1 ≤ 254 by decide⟩, rfl⟩) (fun c hc => ?_)
      (solved_setMate (n := n) (by omega))
    rw [List.mem_singleton.mp hc]
    exact hleaf
  · show 1 + 0 + 0 + s.pool.used ≤ s.pool.used + 1
    omega
  · show leaf.unsettled + 0 ≤ 254
    rw [unsettled_of_not_open fun ho => ho.1 rfl]
    omega

theorem mem_freshChildren {c : DfpnNode} (hc : c ∈ (ms.take 254).map DfpnNode.fresh) :
    ∃ m, c = .fresh m := by
  obtain ⟨m, -, rfl⟩ := List.mem_map.mp hc
  exact ⟨m, rfl⟩

theorem sizes_fresh (ms : MoveList) : DfpnNode.sizes (ms.map DfpnNode.fresh) = ms.length := by
  induction ms with
  | nil => rfl
  | cons m ms ih =>
    rw [List.map_cons, DfpnNode.sizes, ih, List.length_cons, size_of_leaf rfl]
    omega

theorem unsettleds_fresh (ms : MoveList) :
    DfpnNode.unsettleds (ms.map DfpnNode.fresh) = ms.length := by
  induction ms with
  | nil => rfl
  | cons m ms ih =>
    have hone : (DfpnNode.fresh m).unsettled = 1 := rfl
    rw [List.map_cons, DfpnNode.unsettleds, ih, List.length_cons, hone]
    omega

/-- The moves that are expanded, and what asking for them has done. -/
theorem asked_moves (env : Env) (orNode : Bool) (b : ShogiBoard) (s : SearchState) :
    s.Asked (if orNode then env.generateChecks b s else (b.generateLegalMoves, s)).2 := by
  cases orNode
  · exact .refl s
  · exact asked_generateChecks b

/-- The expansion from the generation of the moves on. -/
theorem expandMoves_spec (env : Env) (b : ShogiBoard) (h : Ok orNode n) (hleaf : n.children = []) (hv : Valid s)
    (hply : ply ≤ s.pool.used) :
    ∃ n' s', env.expandMoves orNode b n ply s = .ok (n', s') ∧ Expansion env orNode s n' s' := by
  have hcapacity := hv.capacity
  have hused := hv.used
  have hmoves := asked_moves env orNode b s
  rw [Env.expandMoves]
  generalize (if orNode then env.generateChecks b s else (b.generateLegalMoves, s)) = moves at hmoves ⊢
  have hasked : s.Asked (env.shouldStop moves.2).2 := hmoves.trans (asked_shouldStop env)
  have hpool : (env.shouldStop moves.2).2.pool = s.pool := hasked.pool
  by_cases hstop : (env.shouldStop moves.2).1 = true
  · exact ⟨n, _, if_pos hstop, .unchanged h hleaf hv hasked (stopped_shouldStop hstop)⟩
  simp only [if_neg hstop]
  generalize (env.shouldStop moves.2).2 = t at hasked hpool ⊢
  by_cases hempty : moves.1.isEmpty = true
  · -- no move is left: the node is solved
    rw [if_pos hempty]
    refine ⟨_, _, rfl, hasked.reads, ?_, hasked.searched, hasked.events, hasked.passes, ?_, ?_, ?_, ?_,
      Or.inl (show 0 ≠ notExpanded by decide)⟩
    · cases orNode
      · exact .closed (Or.inl ⟨Or.inl rfl, hleaf⟩) (fun c hc => absurd (hleaf ▸ hc) List.not_mem_nil)
          (solved_setMate (n := n) (by omega))
      · exact .closed (Or.inl ⟨Or.inl rfl, hleaf⟩) (fun c hc => absurd (hleaf ▸ hc) List.not_mem_nil)
          (solved_setNomate (n := n) (by omega))
    · rw [hpool]
    · rw [hpool]
      exact hused
    · rw [hpool, size_of_leaf (by cases orNode <;> exact hleaf), Nat.zero_add]
    · have hnil : ((if orNode then n.setNomate ply else n.setMate ply).withData
          { (if orNode then n.setNomate ply else n.setMate ply).data with childNum := 0 }).children = [] := by
        cases orNode <;> exact hleaf
      rw [hnil, DfpnNode.unsettleds]
      exact Nat.zero_le _
  rw [if_neg hempty]
  by_cases hroom : s.pool.used + moves.1.length ≤ s.pool.capacity
  · -- the children are allocated
    rw [hpool, newNodes_of_room hroom]
    have hpos : 0 < moves.1.length := List.length_pos_iff.mpr fun he => hempty (he ▸ rfl)
    obtain ⟨n', hsum, htree, hchildren, hnum⟩ := summarize_inner orNode
      (n := (n.withData { n.data with childNum := min moves.1.length 254 }).withChildren
        ((moves.1.take 254).map DfpnNode.fresh))
      (show 1 ≤ min moves.1.length 254 by omega) (show min moves.1.length 254 ≤ 254 by omega)
      (by
        show ((moves.1.take 254).map DfpnNode.fresh).length = min moves.1.length 254
        rw [List.length_map, List.length_take, min_comm])
      (fun c hc => by
        obtain ⟨m, rfl⟩ := mem_freshChildren hc
        exact ok_fresh m)
    have hchildren : n'.children = (moves.1.take 254).map DfpnNode.fresh := hchildren
    have hlength : (moves.1.take 254).length ≤ 254 := by
      rw [List.length_take]
      exact min_le_left _ _
    refine ⟨n', { t with pool := { s.pool with used := s.pool.used + moves.1.length } },
      by simp only [Bool.not_true, Bool.false_eq_true, if_false, hsum]; rfl, hasked.reads,
      htree, hasked.searched, hasked.events, hasked.passes, rfl, hroom, ?_, ?_, Or.inl ?_⟩
    · rw [size_eq, hchildren, sizes_fresh, List.length_take]
      show min 254 moves.1.length + s.pool.used ≤ s.pool.used + moves.1.length
      omega
    · rw [hchildren, unsettleds_fresh]
      exact hlength
    · rw [hnum]
      show min moves.1.length 254 ≠ 255
      omega
  · -- the pool is exhausted: the node stays a leaf
    rw [hpool, newNodes_exhausted (not_le.mp hroom)]
    refine ⟨n, { t with pool := { s.pool with exhausted := true } },
      by simp only [Bool.not_false, if_true], hasked.reads, h, hasked.searched,
      hasked.events, hasked.passes, rfl, hused, ?_, ?_, Or.inr (Or.inr rfl)⟩
    · rw [size_of_leaf hleaf, Nat.zero_add]
    · rw [hleaf, DfpnNode.unsettleds]
      exact Nat.zero_le _

theorem Expansion.of_asked {t : SearchState} {n' : DfpnNode} (ha : s.Asked t)
    (h : Expansion env orNode t n' s') : Expansion env orNode s n' s' := by
  refine ⟨ha.reads.trans h.reads, h.tree, h.searched.trans ha.searched, h.events.trans ha.events,
    h.passes.trans ha.passes, ?_, h.used, ?_, h.unsettled, h.expanded⟩
  · rw [h.capacity, ha.pool]
  · rw [← ha.pool]
    exact h.size

/-- The expansion of a leaf. -/
theorem expandNode_spec (env : Env) (b : ShogiBoard) (h : Ok orNode n) (hleaf : n.children = []) (hv : Valid s)
    (hm : s.pool.outOfMemory = false) (hply : ply ≤ s.pool.used) :
    ∃ n' s', env.expandNode orNode b n ply s = .ok (n', s') ∧ Expansion env orNode s n' s' := by
  have hfirst := asked_shouldStop env (s := s)
  rw [Env.expandNode]
  by_cases hstop : (env.shouldStop s).1 = true
  · exact ⟨n, _, if_pos hstop, .unchanged h hleaf hv hfirst (stopped_shouldStop hstop)⟩
  simp only [if_neg hstop]
  generalize (env.shouldStop s).2 = t at hfirst ⊢
  cases orNode with
  | false =>
    obtain ⟨n', s', hexpand, hspec⟩ := expandMoves_spec env b h hleaf
      (hv.asked hfirst) (hfirst.pool ▸ hply)
    exact ⟨n', s', hexpand, hspec.of_asked hfirst⟩
  | true =>
    have hsecond := hfirst.trans (asked_shouldStop env)
    rw [if_pos rfl]
    by_cases hstop : (env.shouldStop t).1 = true
    · exact ⟨n, _, if_pos hstop, .unchanged h hleaf hv hsecond (stopped_shouldStop hstop)⟩
    rw [if_neg hstop]
    cases env.findMateInOne b with
    | none =>
      obtain ⟨n', s', hexpand, hspec⟩ := expandMoves_spec env b h hleaf
        (hv.asked hsecond) (hsecond.pool ▸ hply)
      exact ⟨n', s', hexpand, hspec.of_asked hsecond⟩
    | some m =>
      refine ⟨_, _, rfl, Expansion.of_asked hsecond (expandMate_spec (hv.asked hsecond) ?_ ?_)⟩
      · rw [hsecond.pool]
        exact hm
      · rw [hsecond.pool]
        exact hply

end Expansion

/-! ## The search -/

/-- The search of a node of the kind `orNode` at `ply`, as long as the potential is below `bound`. -/
def Searches (env : Env) (bound : Nat) (orNode : Bool) (ply : Nat)
    (sub : ShogiBoard → DfpnNode → Nat → Nat → SearchState → Except Halt (DfpnNode × SearchState)) : Prop :=
  ∀ b n secondPn secondDn s, Ready env orNode n secondPn secondDn ply s → env.potential n s < bound →
    ∃ n' s', sub b n secondPn secondDn s = .ok (n', s') ∧ Returned s n' s' ∧
      (env.Stopped s' ∨ Advanced env orNode n s n' s')

section Search

variable {env : Env} {orNode : Bool} {n c c' : DfpnNode} {s s' : SearchState} {d : NodeData}
  {b : ShogiBoard} {sel : Selection} {ply secondPn secondDn bound i : Nat}
  {sub : ShogiBoard → DfpnNode → Nat → Nat → SearchState → Except Halt (DfpnNode × SearchState)}

theorem Ok.block (h : Ok orNode n) : Block n.data n.children := by
  obtain ⟨-, -, childNum⟩ | ⟨block, -, -⟩ | ⟨pos, small, length, -, -⟩ := h
  · exact Or.inl ⟨Or.inr childNum, rfl⟩
  · exact block
  · exact Or.inr ⟨⟨pos, small⟩, length⟩

theorem Ok.child (h : Ok orNode n) (hc : c ∈ n.children) : Ok (!orNode) c := by
  obtain - | ⟨-, children, -⟩ | ⟨-, -, -, children, -⟩ := h
  · cases hc
  · exact children c hc
  · exact children c hc

theorem unsettled_pos (h : n.Open) : 1 ≤ n.unsettled := by
  rw [unsettled_of_open h]
  exact Nat.le_add_right _ _

theorem size_withData (n : DfpnNode) (d : NodeData) : (n.withData d).size = n.size := by
  rw [size_eq, size_eq (n := n)]
  rfl

/-- A node that is settled keeps its children. -/
theorem Ok.settle (h : Ok orNode n) (hnum : d.childNum = n.data.childNum) (hs : Solved d.pn d.dn) :
    Ok orNode (n.withData d) := by
  refine .closed ?_ (fun c hc => h.child hc) hs
  rw [Block, hnum]
  exact h.block

/-- A child of an open node is replaced, and the node summarized. -/
theorem summarize_set (h : Ok orNode n) (ho : n.Open) (hn : n.data.childNum ≠ notExpanded)
    (hc : n.children[i]? = some c) (hc' : Ok (!orNode) c') :
    ∃ n', summarizeNode orNode (n.withChildren (n.children.set i c')) = .ok n' ∧ Ok orNode n' ∧
      n'.size + c.size = n.size + c'.size ∧ n'.unsettled + c.unsettled ≤ n.unsettled + c'.unsettled ∧
      n'.data.childNum = n.data.childNum := by
  obtain ⟨pos, length, children, -⟩ := h.of_expanded ho hn
  have small : n.data.childNum ≤ 254 := by
    rcases h.block with ⟨hb, -⟩ | ⟨hb, -⟩
    · exact absurd (hb.resolve_left (by omega)) hn
    · exact hb.2
  obtain ⟨n', hsum, htree, hchildren, hnum⟩ := summarize_inner orNode
    (n := n.withChildren (n.children.set i c')) pos small (by
      show (n.children.set i c').length = n.data.childNum
      rw [List.length_set, length])
    (fun d hd => (List.mem_or_eq_of_mem_set hd).elim (children d) fun he => he ▸ hc')
  have hchildren : n'.children = n.children.set i c' := hchildren
  refine ⟨n', hsum, htree, ?_, ?_, hnum⟩
  · rw [size_eq (n := n'), size_eq (n := n), hchildren]
    exact sizes_set hc
  · have hle := unsettled_le (n := n')
    have hset : DfpnNode.unsettleds (n.children.set i c') + c.unsettled = _ := unsettleds_set hc
    rw [hchildren] at hle
    rw [unsettled_of_open ho]
    omega

/-- A child is settled by repetition. -/
theorem settle_spec (h : Ready env orNode n secondPn secondDn ply s) (hn : n.data.childNum ≠ notExpanded)
    (hc : n.children[i]? = some c) (ho : c.Open) (hnum : d.childNum = c.data.childNum)
    (hs : Solved d.pn d.dn) :
    ∃ n', summarizeNode orNode (n.withChildren (n.children.set i (c.withData d))) = .ok n' ∧
      Returned s n' { s with events := s.events + 1 } ∧
      Advanced env orNode n s n' { s with events := s.events + 1 } ∧
      n'.data.childNum = n.data.childNum := by
  have hcc : Ok (!orNode) c := h.tree.child (List.mem_of_getElem? hc)
  obtain ⟨n', hsum, htree, hsize, hunsettled, hnum'⟩ :=
    summarize_set h.tree h.live hn hc (hcc.settle hnum hs)
  have hclosed : (c.withData d).unsettled = 0 := unsettled_of_not_open (hs.not_open (n := c.withData d))
  have hpos := unsettled_pos ho
  rw [size_withData] at hsize
  have hsmall : n'.size ≤ 2000000 := by
    have := h.valid.small h.room
    omega
  have hless : env.potential n' s < env.potential n s := by
    rw [Env.potential, Env.potential]
    omega
  have hsize : n'.size + s.pool.used ≤ n.size + s.pool.used := by omega
  refine ⟨n', hsum, ⟨le_rfl, ⟨h.valid.used, h.valid.capacity, h.valid.passes⟩, htree.wellFormed hsmall⟩,
    ⟨⟨htree, hsize, hless.le, Nat.le_succ _, id⟩, hless, Or.inl (Nat.lt_succ_self _)⟩, hnum'⟩

theorem solved_settled {rep : RepetitionResult} (h : ply ≤ 2000001) :
    Solved (Env.settled orNode n ply rep).data.pn (Env.settled orNode n ply rep).data.dn := by
  rw [Env.settled]
  by_cases hrep : rep = (if orNode then .loss else .win)
  · rw [if_pos hrep]
    exact solved_setMate (n := n) h
  · rw [if_neg hrep]
    exact solved_setNomate (n := n) h

theorem settled_eq (orNode : Bool) (n : DfpnNode) (ply : Nat) (rep : RepetitionResult) :
    Env.settled orNode n ply rep = n.withData (Env.settled orNode n ply rep).data ∧
      (Env.settled orNode n ply rep).data.childNum = n.data.childNum := by
  rw [Env.settled]
  by_cases hrep : rep = (if orNode then .loss else .win)
  · rw [if_pos hrep]
    exact ⟨rfl, rfl⟩
  · rw [if_neg hrep]
    exact ⟨rfl, rfl⟩

theorem everywhere_set {P : DfpnNode → Prop} (h : Everywhere P n)
    (hP : P (n.withChildren (n.children.set i c'))) (hc' : Everywhere P c') :
    Everywhere P (n.withChildren (n.children.set i c')) := by
  refine .mk hP fun d hd => ?_
  rcases List.mem_or_eq_of_mem_set hd with hd | rfl
  · exact h.child hd
  · exact hc'

/-- A child of a node that is not summarized any more. -/
theorem wellFormed_set (h : Everywhere WellFormed n) (hc' : Everywhere WellFormed c') :
    Everywhere WellFormed (n.withChildren (n.children.set i c')) := by
  refine everywhere_set h ⟨?_, h.here.2⟩ hc'
  refine h.here.1.imp (fun hb => ⟨hb.1, ?_⟩) fun hb => ⟨hb.1, ?_⟩
  · show n.children.set i c' = []
    rw [hb.2, List.set_nil]
  · show (n.children.set i c').length = n.data.childNum
    rw [List.length_set]
    exact hb.2

/-- The visit of the child that has been selected. -/
theorem visitChild_spec (hsub : Searches env bound (!orNode) (ply + 1) sub)
    (h : Ready env orNode n secondPn secondDn ply s) (hn : n.data.childNum ≠ notExpanded)
    (hbound : env.potential n s ≤ bound) (hc : n.children[sel.index]? = some c) (ho : c.Open)
    (hpn : c.data.pn < sel.secondPn) (hdn : c.data.dn < sel.secondDn) :
    ∃ stop n' s', env.visitChild sub orNode b ply n sel s = .ok (stop, n', s') ∧ Returned s n' s' ∧
      (stop = true → env.Stopped s') ∧
      (stop = false → Advanced env orNode n s n' s' ∧ n'.data.childNum = n.data.childNum) := by
  have hsmall := h.valid.small h.room
  have hply : ply + 1 ≤ 2000001 := by
    have := h.valid.used
    have := h.valid.capacity
    have := h.room
    omega
  have hmem : c ∈ n.children := List.mem_of_getElem? hc
  rw [Env.visitChild, hc, Option.elim_some]
  by_cases hrep : ((b.doMove c.data.lastMove).checkRepetition kRepetitionLookbackPly).1 ≠ .none
  · -- the rules decide the child
    simp only [if_pos hrep]
    obtain ⟨heq, hnum⟩ := settled_eq orNode c (ply + 1)
      ((b.doMove c.data.lastMove).checkRepetition kRepetitionLookbackPly).1
    obtain ⟨n', hsum, hret, hadv, hnum'⟩ := settle_spec h hn hc ho hnum (solved_settled hply)
    rw [← heq] at hsum
    exact ⟨false, n', _, by rw [hsum]; rfl, hret, fun hf => absurd hf Bool.false_ne_true,
      fun _ => ⟨hadv, hnum'⟩⟩
  simp only [if_neg hrep]
  by_cases hpath : s.pathHashes.contains (b.doMove c.data.lastMove).hash = true
  · -- a longer cycle
    simp only [if_pos hpath]
    obtain ⟨n', hsum, hret, hadv, hnum'⟩ := settle_spec (d := { (c.setNomate (ply + 1)).data with repeated := true })
      h hn hc ho rfl (solved_setNomate (n := c) hply)
    have hsum : summarizeNode orNode (n.withChildren (n.children.set sel.index
      ((c.setNomate (ply + 1)).withData { (c.setNomate (ply + 1)).data with repeated := true }))) = .ok n' := hsum
    exact ⟨false, n', _, by rw [hsum]; rfl, hret, fun hf => absurd hf Bool.false_ne_true,
      fun _ => ⟨hadv, hnum'⟩⟩
  simp only [if_neg hpath]
  -- the child is searched
  have hcsize := size_lt hmem
  have hcpot : env.potential c s < env.potential n s := by
    have hle : c.unsettled ≤ DfpnNode.unsettleds n.children := by
      rw [unsettleds_eq]
      exact List.single_le_sum (fun _ _ => Nat.zero_le _) _ (List.mem_map_of_mem hmem)
    rw [Env.potential, Env.potential, unsettled_of_open h.live]
    omega
  have hready : Ready env (!orNode) c sel.secondPn sel.secondDn (ply + 1)
      { s with pathHashes := (b.doMove c.data.lastMove).hash :: s.pathHashes } :=
    ⟨⟨h.valid.used, h.valid.capacity, h.valid.passes⟩, h.tree.child hmem, ho, hpn, hdn, by
      have := h.room
      show ply + 1 + c.size ≤ s.pool.used
      omega, h.memory, h.searched⟩
  obtain ⟨c', s', hrun, hret, hout⟩ := hsub (b.doMove c.data.lastMove) c _ _ _ hready (hcpot.trans_le hbound)
  rw [hrun]
  show ∃ stop n' s'', (if (env.shouldStop { s' with pathHashes := s'.pathHashes.tail }).1 = true then _
    else _) = Except.ok (stop, n', s'') ∧ _
  have hvalid : Valid { s' with pathHashes := s'.pathHashes.tail, stopReads := s'.stopReads + 1 } :=
    ⟨hret.valid.used, hret.valid.capacity, hret.valid.passes⟩
  by_cases hstop : env.stop.answer s'.stopReads = true
  · -- the search is stopped: the node keeps its numbers
    refine ⟨true, n.withChildren (n.children.set sel.index c'), _, if_pos hstop,
      ⟨hret.reads.trans (Nat.le_succ _), hvalid, wellFormed_set (h.tree.wellFormed hsmall) hret.tree⟩,
      fun _ => env.stop.sticky _ hstop, fun hf => absurd hf.symm Bool.false_ne_true⟩
  have hadv := hout.resolve_left hstop
  obtain ⟨n', hsum, htree, hsize, hunsettled, hnum⟩ :=
    summarize_set h.tree h.live hn hc hadv.tree
  have hgrow := hadv.size
  have hgrow : c'.size + s.pool.used ≤ c.size + s'.pool.used := hgrow
  have hless : (env.nodesLimit - s'.nodesSearched) * 256 + c'.unsettled <
      (env.nodesLimit - s.nodesSearched) * 256 + c.unsettled := hadv.less
  have hnless : (env.nodesLimit - s'.nodesSearched) * 256 + n'.unsettled <
      (env.nodesLimit - s.nodesSearched) * 256 + n.unsettled := by omega
  have hnsmall : n'.size ≤ 2000000 := by
    have := h.room
    have := hret.valid.used
    have := hret.valid.capacity
    omega
  refine ⟨false, n', { s' with pathHashes := s'.pathHashes.tail, stopReads := s'.stopReads + 1 },
    (if_neg hstop).trans (by rw [hsum]; rfl),
    ⟨hret.reads.trans (Nat.le_succ _), hvalid, htree.wellFormed hnsmall⟩,
    fun hf => absurd hf Bool.false_ne_true, fun _ => ⟨⟨⟨htree, ?_, hnless.le, hadv.events, hadv.memory⟩,
      hnless, hadv.progress⟩, hnum⟩⟩
  show n'.size + s.pool.used ≤ n.size + s'.pool.used
  omega

/-- The pass that has been recorded is good. -/
theorem good_recordPass {stopped : Bool} (h : Ready env orNode n secondPn secondDn ply s)
    (hn : n.data.childNum ≠ notExpanded) (hr : Returned s c' s') (hp : stopped = false → s.events < s'.events ∨
      s'.pool.outOfMemory = true) :
    Returned s c' (Env.recordPass orNode n secondPn secondDn s stopped s') := by
  refine ⟨hr.reads, ⟨hr.valid.used, hr.valid.capacity, fun p hp' => ?_⟩, hr.tree⟩
  rcases List.mem_cons.mp hp' with rfl | hp'
  · have hsmall := h.valid.small h.room
    refine ⟨h.tree.numbered (by omega), exists_selection h.tree hsmall h.live hn h.pn h.dn, ?_⟩
    cases stopped with
    | true => exact Or.inr rfl
    | false => exact (hp rfl).imp id fun hm => hm
  · exact hr.valid.passes p hp'

theorem Advanced.of_asked {t : SearchState} (ha : s.Asked t) (h : Advanced env orNode n t c' s') :
    Advanced env orNode n s c' s' := by
  refine ⟨⟨h.tree, ?_, h.potential.trans_eq (potential_asked ha), ha.events ▸ h.events, ?_⟩,
    h.less.trans_eq (potential_asked ha), ha.events ▸ h.progress⟩
  · rw [← ha.pool]
    exact h.size
  · rw [← ha.pool]
    exact h.memory

/-- The loop of `Search` ends, and it has made progress if it was entered. -/
theorem searchLoop_spec (b : ShogiBoard) {fuel : Nat} (hsub : Searches env bound (!orNode) (ply + 1) sub) (hv : Valid s)
    (ht : Ok orNode n) (hroom : ply + n.size ≤ s.pool.used) (hn : n.data.childNum ≠ notExpanded)
    (hbound : env.potential n s ≤ bound) (hfuel : env.potential n s < fuel) :
    ∃ n' s', env.searchLoop sub orNode b ply secondPn secondDn fuel n s = .ok (n', s') ∧
      Returned s n' s' ∧ (env.Stopped s' ∨ Kept env orNode n s n' s' ∧
        (Ready env orNode n secondPn secondDn ply s → Advanced env orNode n s n' s')) := by
  induction fuel generalizing n s with
  | zero => exact absurd hfuel (Nat.not_lt_zero _)
  | succ fuel ih =>
    have hsmall := hv.small hroom
    have hasked := asked_shouldStop env (s := s)
    rw [Env.searchLoop]
    by_cases hguard : n.data.pn < secondPn ∧ n.data.dn < secondDn ∧ n.data.pn ≠ 0 ∧ n.data.dn ≠ 0 ∧
        s.pool.outOfMemory = false
    swap
    · exact ⟨n, s, if_neg hguard, ⟨le_rfl, hv, ht.wellFormed hsmall⟩, Or.inr ⟨.refl ht, fun h =>
        absurd ⟨h.pn, h.dn, h.live.1, h.live.2, h.memory⟩ hguard⟩⟩
    rw [if_pos hguard]
    obtain ⟨hpn, hdn, hp0, hd0, hm⟩ := hguard
    have hreturned : Returned s n (env.shouldStop s).2 :=
      ⟨hasked.reads, hv.asked hasked, ht.wellFormed hsmall⟩
    by_cases hstop : (env.shouldStop s).1 = true
    · exact ⟨n, _, if_pos (by rw [hstop, Bool.true_or]), hreturned, Or.inl (stopped_shouldStop hstop)⟩
    by_cases hlimit : env.nodesLimit ≤ s.nodesSearched
    · -- the limit is reached
      refine ⟨n, _, if_pos (by rw [Bool.or_eq_true, decide_eq_true_eq]; exact Or.inr hlimit), hreturned,
        Or.inr ⟨⟨ht, le_rfl, le_rfl, le_rfl, id⟩, fun h => absurd h.searched (not_lt.mpr hlimit)⟩⟩
    have hgo : ¬ ((env.shouldStop s).1 || decide (env.nodesLimit ≤ (env.shouldStop s).2.nodesSearched)) = true := by
      rw [Bool.or_eq_true, decide_eq_true_eq]
      exact not_or.mpr ⟨hstop, hlimit⟩
    have hready : Ready env orNode n secondPn secondDn ply (env.shouldStop s).2 :=
      ⟨hv.asked hasked, ht, ⟨hp0, hd0⟩, hpn, hdn, hroom, hm, not_le.mp hlimit⟩
    obtain ⟨sel, c, hsel, hc, ho, hcpn, hcdn⟩ := exists_selection ht hsmall hready.live hn hpn hdn
    obtain ⟨stop, n₁, s₁, hvisit, hret, hstopped, hadv⟩ :=
      visitChild_spec (b := b) hsub hready hn hbound hc ho hcpn hcdn
    have hgood := good_recordPass hready hn hret fun hf => (hadv hf).1.progress
    simp only [if_neg hgo, hsel, hvisit, Except.bind, Option.elim_some]
    cases stop with
    | true =>
      exact ⟨n₁, _, rfl, ⟨hasked.reads.trans hgood.reads, hgood.valid, hgood.tree⟩, Or.inl (hstopped rfl)⟩
    | false =>
      obtain ⟨hadv, hnum⟩ := hadv rfl
      have hadv : Advanced env orNode n s n₁
          (Env.recordPass orNode n secondPn secondDn (env.shouldStop s).2 false s₁) :=
        Advanced.of_asked hasked ⟨⟨hadv.tree, hadv.size, hadv.potential, hadv.events, hadv.memory⟩, hadv.less,
          hadv.progress⟩
      have hless := hadv.less
      obtain ⟨n', s', hrun, hret', hout⟩ := ih (n := n₁) hgood.valid hadv.tree (by
        have := hadv.size
        omega) (hnum ▸ hn) (by omega) (by omega)
      refine ⟨n', s', by rw [if_neg Bool.false_ne_true]; exact hrun,
        ⟨hasked.reads.trans (hgood.reads.trans hret'.reads), hret'.valid, hret'.tree⟩,
        hout.imp id fun hkept => ?_⟩
      have hall := hadv.trans hkept.1
      exact ⟨hall.toKept, fun _ => hall⟩

/-- The expansion of a leaf by `Search`. -/
theorem searchLeaf_spec (b : ShogiBoard) (h : Ready env orNode n secondPn secondDn ply s)
    (hn : n.data.childNum = notExpanded) :
    ∃ n' s', ((env.expandNode orNode b n ply s).bind fun r =>
        if (env.shouldStop r.2).1 then .ok (r.1, (env.shouldStop r.2).2)
        else (summarizeNode orNode r.1).map fun n => (n, Env.recordExpansion r.1 (env.shouldStop r.2).2)) =
          .ok (n', s') ∧
      Returned s n' s' ∧ (env.Stopped s' ∨ Advanced env orNode n s n' s') := by
  have hleaf := h.tree.of_notExpanded h.live hn
  have hroom := h.room
  obtain ⟨n₁, s₁, hexpand, hspec⟩ := expandNode_spec env b h.tree hleaf h.valid
    h.memory (show ply ≤ s.pool.used by omega)
  have hvalid : Valid s₁ := by
    refine ⟨hspec.used, hspec.capacity ▸ h.valid.capacity, ?_⟩
    rw [hspec.passes]
    exact h.valid.passes
  have hsmall : n₁.size ≤ 2000000 := by
    have := hspec.size
    have := hvalid.used
    have := hvalid.capacity
    omega
  rw [hexpand, Except.bind]
  by_cases hstop : (env.shouldStop s₁).1 = true
  · exact ⟨n₁, _, if_pos hstop, ⟨hspec.reads.trans (Nat.le_succ _),
      ⟨hvalid.used, hvalid.capacity, hvalid.passes⟩, hspec.tree.wellFormed hsmall⟩,
      Or.inl (stopped_shouldStop hstop)⟩
  obtain ⟨n₂, hsum, htree, hchildren, -⟩ := summarize_ok hspec.tree
  have hsize : n₂.size = n₁.size := by rw [size_eq, hchildren, ← size_eq]
  have hunsettled : n₂.unsettled ≤ 255 := by
    have := unsettled_le (n := n₂)
    have := hspec.unsettled
    rw [hchildren] at *
    omega
  -- the expansion costs one node of the limit and opens at most 255 nodes
  have hless : (env.nodesLimit - (s₁.nodesSearched + 1)) * 256 + n₂.unsettled <
      (env.nodesLimit - s.nodesSearched) * 256 + n.unsettled := by
    have := unsettled_pos h.live
    have := h.searched
    rw [hspec.searched]
    omega
  have hevents : s.events ≤ (Env.recordExpansion n₁ (env.shouldStop s₁).2).events ∧
      (s.events < (Env.recordExpansion n₁ (env.shouldStop s₁).2).events ∨ s₁.pool.outOfMemory = true) := by
    have hevents : (env.shouldStop s₁).2.events = s.events := hspec.events
    rw [Env.recordExpansion, hevents]
    rcases hspec.expanded with hex | hex | hex
    · rw [if_pos hex]
      exact ⟨Nat.le_succ _, Or.inl (Nat.lt_succ_self _)⟩
    · exact absurd hex hstop
    · refine ⟨?_, Or.inr hex⟩
      split
      · exact Nat.le_succ _
      · exact le_rfl
  refine ⟨n₂, Env.recordExpansion n₁ (env.shouldStop s₁).2, (if_neg hstop).trans (by rw [hsum]; rfl),
    ⟨hspec.reads.trans (Nat.le_succ _), ⟨hvalid.used, hvalid.capacity, hvalid.passes⟩,
      htree.wellFormed (by omega)⟩,
    Or.inr ⟨⟨htree, ?_, hless.le, hevents.1, fun hm => absurd (h.memory.symm.trans hm) Bool.false_ne_true⟩,
      hless, hevents.2⟩⟩
  show n₂.size + s.pool.used ≤ n.size + s₁.pool.used
  have := hspec.size
  omega

/-- The search of a node returns, and it has made progress unless it was stopped. -/
theorem searchNode_spec (env : Env) (fuel : Nat) (orNode : Bool) (ply : Nat) :
    Searches env fuel orNode ply fun b n secondPn secondDn s =>
      env.searchNode fuel orNode b n secondPn secondDn ply s := by
  induction fuel generalizing orNode ply with
  | zero => exact fun b n secondPn secondDn s _ hlt => absurd hlt (Nat.not_lt_zero _)
  | succ fuel ih =>
    intro b n secondPn secondDn s h hlt
    have hasked := asked_shouldStop env (s := s)
    have hsmall := h.valid.small h.room
    show ∃ n' s', env.searchNode (fuel + 1) orNode b n secondPn secondDn ply s = .ok (n', s') ∧ _
    rw [Env.searchNode]
    by_cases hstop : (env.shouldStop s).1 = true
    · exact ⟨n, _, if_pos hstop, ⟨hasked.reads, h.valid.asked hasked, h.tree.wellFormed hsmall⟩,
        Or.inl (stopped_shouldStop hstop)⟩
    have hready : Ready env orNode n secondPn secondDn ply (env.shouldStop s).2 :=
      ⟨h.valid.asked hasked, h.tree, h.live, h.pn, h.dn, h.room, h.memory, h.searched⟩
    simp only [if_neg hstop]
    by_cases hn : n.data.childNum = notExpanded
    · obtain ⟨n', s', hrun, hret, hout⟩ := searchLeaf_spec b hready hn
      exact ⟨n', s', (if_pos hn).trans hrun, ⟨hasked.reads.trans hret.reads, hret.valid, hret.tree⟩,
        hout.imp id (Advanced.of_asked hasked)⟩
    · obtain ⟨n', s', hrun, hret, hout⟩ := searchLoop_spec b
        (ih (!orNode) (ply + 1)) hready.valid h.tree hready.room hn (Nat.le_of_lt_succ hlt) hlt
      exact ⟨n', s', (if_neg hn).trans hrun, ⟨hasked.reads.trans hret.reads, hret.valid, hret.tree⟩,
        hout.imp id fun hkept => Advanced.of_asked hasked (hkept.2 hready)⟩

/-- Once the search is stopped, the loop of `search` only asks once more. -/
theorem rootLoop_stopped (board : ShogiBoard) {fuel : Nat} (hfuel : 0 < fuel) (hv : Valid s)
    (ht : Everywhere WellFormed n) (hs : env.Stopped s) :
    ∃ n' s', env.rootLoop board fuel n s = .ok (n', s') ∧ Returned s n' s' ∧ env.Stopped s' := by
  obtain ⟨fuel, rfl⟩ := Nat.exists_eq_succ_of_ne_zero hfuel.ne'
  have hasked := asked_shouldStop env (s := s)
  have hstop : (env.shouldStop s).1 = true := hs
  rw [Env.rootLoop]
  by_cases hguard : n.data.pn ≠ 0 ∧ n.data.dn ≠ 0 ∧ s.pool.outOfMemory = false
  · rw [if_pos hguard]
    exact ⟨n, _, if_pos (by rw [hstop, Bool.true_or]), ⟨hasked.reads, hv.asked hasked, ht⟩,
      hs.later hasked.reads⟩
  · exact ⟨n, s, if_neg hguard, ⟨le_rfl, hv, ht⟩, hs⟩

/-- The loop of `search` ends. -/
theorem rootLoop_spec (env : Env) (board : ShogiBoard) {fuel : Nat} (hv : Valid s) (ht : Ok true n)
    (hroom : n.size ≤ s.pool.used) (hfuel : env.potential n s + 1 < fuel) :
    ∃ n' s', env.rootLoop board fuel n s = .ok (n', s') ∧ Returned s n' s' ∧
      (env.Stopped s' ∨ Kept env true n s n' s') := by
  induction fuel generalizing n s with
  | zero => exact absurd hfuel (Nat.not_lt_zero _)
  | succ fuel ih =>
    have hroom : 0 + n.size ≤ s.pool.used := by omega
    have hsmall := hv.small hroom
    have hasked := asked_shouldStop env (s := s)
    rw [Env.rootLoop]
    by_cases hguard : n.data.pn ≠ 0 ∧ n.data.dn ≠ 0 ∧ s.pool.outOfMemory = false
    swap
    · exact ⟨n, s, if_neg hguard, ⟨le_rfl, hv, ht.wellFormed hsmall⟩, Or.inr (.refl ht)⟩
    rw [if_pos hguard]
    obtain ⟨hp0, hd0, hm⟩ := hguard
    have hreturned : Returned s n (env.shouldStop s).2 :=
      ⟨hasked.reads, hv.asked hasked, ht.wellFormed hsmall⟩
    by_cases hstop : (env.shouldStop s).1 = true
    · exact ⟨n, _, if_pos (by rw [hstop, Bool.true_or]), hreturned, Or.inl (stopped_shouldStop hstop)⟩
    by_cases hlimit : env.nodesLimit ≤ s.nodesSearched
    · exact ⟨n, _, if_pos (by rw [Bool.or_eq_true, decide_eq_true_eq]; exact Or.inr hlimit), hreturned,
        Or.inr ⟨ht, le_rfl, le_rfl, le_rfl, id⟩⟩
    have hgo : ¬ ((env.shouldStop s).1 || decide (env.nodesLimit ≤ (env.shouldStop s).2.nodesSearched)) = true := by
      rw [Bool.or_eq_true, decide_eq_true_eq]
      exact not_or.mpr ⟨hstop, hlimit⟩
    have hcounts := (ht.numbered (by omega)).here.2.counts ⟨hp0, hd0⟩
    have hfrontier := frontier_le n
    have hinf : INF = 4294967280 := rfl
    have hready : Ready env true n INF INF 0 (env.shouldStop s).2 :=
      ⟨hv.asked hasked, ht, ⟨hp0, hd0⟩, by have := hcounts.1.2; omega, by have := hcounts.2.2; omega, hroom,
        hm, not_le.mp hlimit⟩
    obtain ⟨n₁, s₁, hrun, hret, hout⟩ := searchNode_spec env fuel true 0 board n INF INF _ hready
      (Nat.lt_of_succ_lt_succ ((Nat.succ_le_succ (potential_asked hasked).le).trans_lt hfuel))
    simp only [if_neg hgo, hrun, Except.bind]
    rcases hout with hstopped | hadv
    · obtain ⟨n', s', hrun', hret', hs'⟩ := rootLoop_stopped board (show 0 < fuel by omega)
        hret.valid hret.tree hstopped
      exact ⟨n', s', hrun', ⟨hasked.reads.trans (hret.reads.trans hret'.reads), hret'.valid, hret'.tree⟩,
        Or.inl hs'⟩
    · have hadv := hadv.of_asked hasked
      have hless := hadv.less
      obtain ⟨n', s', hrun', hret', hout⟩ := ih hret.valid hadv.tree (by
        have := hadv.size
        omega) (by omega)
      exact ⟨n', s', hrun', ⟨hasked.reads.trans (hret.reads.trans hret'.reads), hret'.valid, hret'.tree⟩,
        hout.imp id fun hkept => (hadv.trans hkept).toKept⟩

theorem poolSize_le (nodesLimit : Nat) : poolSize nodesLimit ≤ 2000000 := by
  rw [poolSize]
  exact max_le (by decide) (min_le_right _ _)

theorem asked_interpret (env : Env) (root : DfpnNode) (s : SearchState) :
    s.Asked (env.interpret root s).state ∧ (env.interpret root s).root = root := by
  have hone := asked_shouldStop env (s := s)
  have htwo := hone.trans (asked_shouldStop env)
  rw [Env.interpret]
  split
  · exact ⟨hone, rfl⟩
  · split
    · dsimp only
      split
      · exact ⟨htwo, rfl⟩
      · exact ⟨htwo, rfl⟩
    · split
      · exact ⟨hone, rfl⟩
      · exact ⟨hone, rfl⟩

end Search

section Runs

/-- Every search ends, whatever its limit and its position. Each pass of its loops finds a tree with its
children and numbers, selects an open child with numbers below the thresholds, and settles or expands
something unless the search is stopped or the pool is exhausted. At the end the children are there and
a solved node has one number zero; the numbers of the open nodes are right unless the search was stopped. -/
theorem Env.search_progress (env : Env) (board : ShogiBoard) (extra : Nat) :
    ∃ o, env.search (256 * env.nodesLimit + 3 + extra) board = .ok o ∧
      (∀ p ∈ o.state.passes, p.Good) ∧ Everywhere WellFormed o.root ∧
      (env.Stopped o.state ∨ Everywhere Numbered o.root) := by
  have htree : Ok true (DfpnNode.fresh Move.null) := ok_fresh _
  have hnumbered : Everywhere Numbered (DfpnNode.fresh Move.null) := htree.numbered (by decide)
  have hvalid : Valid (env.start board) :=
    ⟨Nat.zero_le _, poolSize_le _, fun _ hp => absurd hp List.not_mem_nil⟩
  rw [Env.search]
  by_cases hstop : env.stop.answer 0 = true
  · exact ⟨_, if_pos hstop, hvalid.passes, hnumbered.imp Numbered.wellFormed, Or.inr hnumbered⟩
  obtain ⟨root, s, hrun, hret, hout⟩ := rootLoop_spec env board hvalid htree (Nat.zero_le _)
    (show (env.nodesLimit - 0) * 256 + 1 + 1 < 256 * env.nodesLimit + 3 + extra by omega)
  obtain ⟨hasked, hroot⟩ := asked_interpret env root s
  refine ⟨env.interpret root s, (if_neg hstop).trans (by rw [hrun]; rfl), ?_, ?_, ?_⟩
  · rw [hasked.passes]
    exact hret.valid.passes
  · rw [hroot]
    exact hret.tree
  · rw [hroot]
    refine hout.imp (fun hs => hs.later hasked.reads) fun hkept => ?_
    have hsize : root.size + 0 ≤ 0 + s.pool.used := hkept.size
    have := hret.valid.used
    have := hret.valid.capacity
    exact hkept.tree.numbered (by omega)

/-- A request to stop that arrives while the search is at the first child of the root. -/
def lateStop : StopAnswers := ⟨fun i => decide (10 ≤ i), fun i h => by
  rw [decide_eq_true_eq] at h ⊢
  omega⟩

/-- The pass that is cut short by the request neither settles nor expands anything: Black has the one
check with the gold, which does not mate. -/
theorem Env.not_progress_lateStop :
    ¬ ∀ (env : Env) (board : ShogiBoard) (fuel : Nat) (o : Outcome), env.search fuel board = .ok o →
      ∀ p ∈ o.state.passes, p.before < p.after := by
  intro h
  have hrun : ((⟨1000, lateStop, fun _ => none, true⟩ : Env).search 8
      (ShogiBoard.new.placeAll [(.fromIdx 76, ⟨.black, .king⟩), (.fromIdx 0, ⟨.white, .king⟩),
        (.fromIdx 20, ⟨.black, .gold⟩)]).computeHash).toOption.map
      (fun o => o.state.passes.map fun p => (p.before, p.after)) = some [(1, 1)] := by
    decide +kernel
  cases hres : (⟨1000, lateStop, fun _ => none, true⟩ : Env).search 8
      (ShogiBoard.new.placeAll [(.fromIdx 76, ⟨.black, .king⟩), (.fromIdx 0, ⟨.white, .king⟩),
        (.fromIdx 20, ⟨.black, .gold⟩)]).computeHash with
  | error e =>
    rw [hres] at hrun
    cases hrun
  | ok o =>
    rw [hres] at hrun
    obtain ⟨p, hp, heq⟩ := List.mem_map.mp (Option.some.inj hrun ▸ List.mem_singleton_self (1, 1))
    have hlt := h _ _ _ _ hres p hp
    have hbefore : p.before = 1 := congrArg Prod.fst heq
    have hafter : p.after = 1 := congrArg Prod.snd heq
    omega

end Runs

end MateDfpnSolver

end Shogi
