import ShogiEngine.Library.ExitGame
import ShogiEngine.Library.PrefixSums

/-!
# The Gote exit solver

The retrograde search of `book/gote_exit_solver.h`: how soon Gote can make the game leave a book,
with a counter of unresolved successors at each Sente node.

## Main definitions

- `Graph`: what the source requires of its template parameter
- `solveGoteExitGraph`: the source's function
- `Graph.WithinLimits`: valid children and degrees that 32 bits can hold
- `Graph.arena`: the game that the graph stands for

## Main results

- `degrees_counted`, `parentsOf_eq`: the counting passes and the reversed edges
- `visit_sound`: what one reversed edge does to the search
- `solveGoteExitGraph_value`: the search ends, and the distances are the values of the game
-/

namespace GoteExit

/-! ## The source's function -/

/-- The largest number of type `uint32_t`. -/
def uint32Max : Nat := 2 ^ 32 - 1

/-- `kExitLeaf`. -/
def kExitLeaf : Nat := uint32Max

/-- `kExitDisallowed`. -/
def kExitDisallowed : Nat := uint32Max - 1

/-- `kExitDistanceInfinite`. -/
def kExitDistanceInfinite : Nat := uint32Max

/-- `NodeCount`, `IsGote`, and the children `EdgeChild(node, 0)`, `EdgeChild(node, 1)`, … of a node. -/
structure Graph where
  nodeCount : Nat
  isGote : Nat → Bool
  children : Nat → List Nat

/-- `GoteExitSolution`. -/
structure GoteExitSolution where
  distance : Nat → Nat
  allowedInternalEdges : Nat
  finiteNodes : Nat
  infiniteNodes : Nat

/-- Why there is no solution: an exception, or a loop that is still running. -/
inductive Failure
  | thrown (what : String)
  | running

/-- What the first pass counts. -/
structure Degrees where
  reverseCounts : Nat → Nat
  unresolved : Nat → Nat
  hasAllowedEdge : Nat → Bool
  hasExitEdge : Nat → Bool
  internalEdges : Nat

/-- Before the first pass. -/
def Degrees.zero : Degrees := ⟨fun _ => 0, fun _ => 0, fun _ => false, fun _ => false, 0⟩

/-- The vectors of the search, and its queue. -/
structure Search where
  distance : Nat → Nat
  maxChildDistance : Nat → Nat
  unresolved : Nat → Nat
  queue : List Nat

namespace Graph

variable (g : Graph)

/-- The body of the first pass for an edge of `node`. -/
def countEdge (node : Nat) (s : Degrees) (child : Nat) : Except Failure Degrees :=
  if child = kExitDisallowed then .ok s
  else
    let s := { s with hasAllowedEdge := Function.update s.hasAllowedEdge node true }
    if child = kExitLeaf then
      .ok { s with hasExitEdge := Function.update s.hasExitEdge node true }
    else if g.nodeCount ≤ child then .error (.thrown "Gote exit graph child is out of range")
    else if s.reverseCounts child = uint32Max then
      .error (.thrown "Gote exit reverse degree overflow")
    else
      let s := { s with
        reverseCounts := Function.update s.reverseCounts child (s.reverseCounts child + 1)
        internalEdges := s.internalEdges + 1 }
      if g.isGote node then .ok s
      else if s.unresolved node = uint32Max then .error (.thrown "Gote exit out-degree overflow")
      else .ok { s with unresolved := Function.update s.unresolved node (s.unresolved node + 1) }

/-- The first pass. -/
def degrees : Except Failure Degrees :=
  (List.range g.nodeCount).foldlM (fun s node => (g.children node).foldlM (g.countEdge node) s) .zero

/-- `reverse_offsets`. -/
def reverseOffsets (reverseCounts : Nat → Nat) : Nat → Nat := PrefixSums.before reverseCounts

/-- The body of the second pass for an edge of `parent`; the counts begin at zero again. -/
def placeParent (offsets : Nat → Nat) (parent : Nat) (s : PrefixSums.Filling Nat) (child : Nat) :
    PrefixSums.Filling Nat :=
  if kExitDisallowed ≤ child then s
  else
    let position := offsets child + s.count child
    { count := Function.update s.count child (s.count child + 1)
      cells := Function.update s.cells position parent }

/-- `reverse_parents`. -/
def reverseParents (offsets : Nat → Nat) : Nat → Nat :=
  ((List.range g.nodeCount).foldl
    (fun s parent => (g.children parent).foldl (placeParent offsets parent) s)
    ⟨fun _ => 0, fun _ => 0⟩).cells

/-- `immediately_finite`. -/
def immediatelyFinite (d : Degrees) (node : Nat) : Bool :=
  if g.isGote node then d.hasExitEdge node
  else d.hasAllowedEdge node && d.unresolved node == 0

/-- The body of the loop that fills the queue. -/
def seed (d : Degrees) (s : Search) (node : Nat) : Search :=
  if g.immediatelyFinite d node then
    { s with distance := Function.update s.distance node 1, queue := s.queue ++ [node] }
  else s

/-- The search before the first node is taken from the queue. -/
def start (d : Degrees) : Search :=
  (List.range g.nodeCount).foldl (g.seed d)
    ⟨fun _ => kExitDistanceInfinite, fun _ => 0, d.unresolved, []⟩

/-- A node has become finite. -/
def enqueue (s : Search) (node distance : Nat) : Search :=
  { s with
    distance := Function.update s.distance node (distance % 2 ^ 32)
    queue := s.queue ++ [node] }

/-- The body of the inner loop, for a parent of a node at this distance. -/
def visit (childDistance : Nat) (s : Search) (parent : Nat) : Except Failure Search :=
  if s.distance parent ≠ kExitDistanceInfinite then .ok s
  else if g.isGote parent then
    .ok (enqueue s parent
      (if childDistance = kExitDistanceInfinite then kExitDistanceInfinite else childDistance + 1))
  else
    let farthest := max (s.maxChildDistance parent) childDistance
    if s.unresolved parent = 0 then .error (.thrown "Gote exit unresolved underflow")
    else
      let s := { s with
        maxChildDistance := Function.update s.maxChildDistance parent farthest
        unresolved := Function.update s.unresolved parent (s.unresolved parent - 1) }
      if s.unresolved parent = 0 then .ok (enqueue s parent (farthest + 1)) else .ok s

/-- The parents of a node, with repetitions: the slice of `reverse_parents` between two offsets. -/
def parentsOf (offsets parents : Nat → Nat) (child : Nat) : List Nat :=
  (List.range' (offsets child) (offsets (child + 1) - offsets child)).map parents

/-- The outer loop, in at most `fuel` passes. -/
def drain (parentsOf : Nat → List Nat) : Nat → Nat → Search → Except Failure Search
  | 0, _, _ => .error .running
  | fuel + 1, head, s =>
    if s.queue.length ≤ head then .ok s
    else
      let child := s.queue.getD head 0
      ((parentsOf child).foldlM (g.visit (s.distance child)) s).bind (drain parentsOf fuel (head + 1))

/-- `SolveGoteExitGraph`. -/
def solveGoteExitGraph : Except Failure GoteExitSolution :=
  if kExitDisallowed ≤ g.nodeCount then .error (.thrown "Gote exit graph has too many nodes")
  else
    g.degrees.bind fun d =>
      let offsets := reverseOffsets d.reverseCounts
      if offsets g.nodeCount ≠ d.internalEdges ∨ 2 ^ 64 - 1 < d.internalEdges then
        .error (.thrown "Gote exit reverse graph size overflow")
      else
        (g.drain (parentsOf offsets (g.reverseParents offsets)) (g.nodeCount + 1) 0 (g.start d)).bind
          fun s =>
            .ok
              { distance := s.distance
                allowedInternalEdges := d.internalEdges
                finiteNodes := s.queue.length
                infiniteNodes := g.nodeCount - s.queue.length }

end Graph

namespace Graph

/-! ## Edges -/

/-- The edges in the order of the passes, as pairs of a parent and a child. -/
def edges (g : Graph) : List (Nat × Nat) :=
  (List.range g.nodeCount).flatMap fun p => (g.children p).map fun c => (p, c)

/-- The edges that stay in the book. -/
def internal (l : List (Nat × Nat)) : List (Nat × Nat) := l.filter fun e => e.2 < kExitDisallowed

/-- How often `c` is a child. -/
def inDegree (l : List (Nat × Nat)) (c : Nat) : Nat := (internal l).countP fun e => e.2 = c

/-- How many children in the book `p` has. -/
def outDegree (l : List (Nat × Nat)) (p : Nat) : Nat := (internal l).countP fun e => e.1 = p

/-- Children are nodes, and the numbers of nodes and edges fit where the source keeps them. -/
structure WithinLimits (g : Graph) : Prop where
  nodes : g.nodeCount < kExitDisallowed
  children : ∀ p < g.nodeCount, ∀ c ∈ g.children p,
    c < g.nodeCount ∨ c = kExitLeaf ∨ c = kExitDisallowed
  edgeCount : ∀ p < g.nodeCount, (g.children p).length ≤ uint32Max
  reverseDegree : ∀ c < g.nodeCount, inDegree g.edges c ≤ uint32Max

section Edges

variable {g : Graph} {l done rest : List (Nat × Nat)} {e : Nat × Nat} {p c n : Nat}

theorem mem_edges : (p, c) ∈ g.edges ↔ p < g.nodeCount ∧ c ∈ g.children p := by
  rw [edges, List.mem_flatMap]
  constructor
  · rintro ⟨q, hq, hmem⟩
    obtain ⟨d, hd, heq⟩ := List.mem_map.mp hmem
    cases heq
    exact ⟨List.mem_range.mp hq, hd⟩
  · rintro ⟨hp, hc⟩
    exact ⟨p, List.mem_range.mpr hp, List.mem_map_of_mem hc⟩

theorem mem_internal : (p, c) ∈ internal l ↔ (p, c) ∈ l ∧ c < kExitDisallowed := by
  rw [internal, List.mem_filter, decide_eq_true_eq]

theorem internal_append : internal (l ++ done) = internal l ++ internal done := List.filter_append ..

theorem internal_singleton : internal [e] = if e.2 < kExitDisallowed then [e] else [] := by
  rw [internal, List.filter_singleton]
  by_cases h : e.2 < kExitDisallowed
  · rw [if_pos h, decide_eq_true h]
    rfl
  · rw [if_neg h, decide_eq_false h]
    rfl

/-- The edges of one node. -/
theorem filter_flatMap_range (f : Nat → List Nat) (hp : p < n) :
    ((List.range n).flatMap fun q => (f q).map fun c => (q, c)).filter (fun e => e.1 = p) =
      (f p).map fun c => (p, c) := by
  induction n with
  | zero => exact absurd hp (Nat.not_lt_zero p)
  | succ n ih =>
    have hmap : ∀ q, ((f q).map fun c => (q, c)).filter (fun e => decide (e.1 = p)) =
        if q = p then (f q).map fun c => (q, c) else [] := by
      intro q
      by_cases hq : q = p
      · rw [if_pos hq, List.filter_eq_self]
        intro e he
        obtain ⟨c, -, rfl⟩ := List.mem_map.mp he
        exact decide_eq_true hq
      · rw [if_neg hq, List.filter_eq_nil_iff]
        intro e he
        obtain ⟨c, -, rfl⟩ := List.mem_map.mp he
        exact fun h => hq (of_decide_eq_true h)
    rw [List.range_succ, List.flatMap_append, List.filter_append, List.flatMap_singleton, hmap]
    by_cases hn : n = p
    · subst hn
      rw [if_pos rfl, List.filter_eq_nil_iff.mpr, List.nil_append]
      intro e he
      obtain ⟨q, hq, hmem⟩ := List.mem_flatMap.mp he
      obtain ⟨c, -, rfl⟩ := List.mem_map.mp hmem
      exact fun h => (List.mem_range.mp hq).ne (of_decide_eq_true h)
    · rw [if_neg hn, List.append_nil, ih (by omega)]

theorem outDegree_le (hp : p < g.nodeCount) : outDegree g.edges p ≤ (g.children p).length := by
  have hall : g.edges.countP (fun e => decide (e.1 = p)) = (g.children p).length := by
    rw [List.countP_eq_length_filter, edges, filter_flatMap_range _ hp, List.length_map]
  rw [← hall]
  exact (List.filter_sublist).countP_le

/-- A count over some of the edges is below the one over all if the next edge counts. -/
theorem countP_internal_lt {q : Nat × Nat → Bool} (hl : l = done ++ e :: rest)
    (he : e.2 < kExitDisallowed) (hq : q e = true) :
    (internal done).countP q < (internal l).countP q := by
  have hsplit : internal l = internal done ++ ([e] ++ internal rest) := by
    rw [hl, show e :: rest = [e] ++ rest from rfl, internal_append, internal_append,
      internal_singleton, if_pos he]
  rw [hsplit, List.countP_append, List.countP_append, List.countP_singleton, if_pos hq]
  omega

end Edges

/-! ## The counting pass -/

/-- A loop over a list whose passes do not fail. -/
theorem foldlM_induction {α σ : Type} {f : σ → α → Except Failure σ} {I : List α → σ → Prop}
    {l : List α} (hstep : ∀ done a rest s, l = done ++ a :: rest → I done s →
      ∃ s', f s a = .ok s' ∧ I (done ++ [a]) s') {s : σ} (hs : I [] s) :
    ∃ s', l.foldlM f s = .ok s' ∧ I l s' := by
  suffices h : ∀ rest done s, l = done ++ rest → I done s →
      ∃ s', rest.foldlM f s = .ok s' ∧ I (done ++ rest) s' from h l [] s rfl hs
  intro rest
  induction rest with
  | nil =>
    intro done s _ hs
    rw [List.append_nil]
    exact ⟨s, rfl, hs⟩
  | cons a rest ih =>
    intro done s hl hs
    obtain ⟨u, hu, hI⟩ := hstep done a rest s hl hs
    have happend : done ++ a :: rest = (done ++ [a]) ++ rest := by rw [List.append_assoc]; rfl
    obtain ⟨s', hs', hI'⟩ := ih (done ++ [a]) u (hl.trans happend) hI
    refine ⟨s', ?_, happend ▸ hI'⟩
    rw [List.foldlM_cons, hu]
    exact hs'

theorem foldlM_flatMap {α β σ : Type} {f : σ → β → Except Failure σ} {h : α → List β} {l : List α}
    {s : σ} : (l.flatMap h).foldlM f s = l.foldlM (fun s a => (h a).foldlM f s) s := by
  induction l generalizing s with
  | nil => rfl
  | cons a l ih =>
    rw [List.flatMap_cons, List.foldlM_append, List.foldlM_cons]
    exact bind_congr fun u => ih

/-- What the first pass knows after the edges `l`. -/
structure Counted (g : Graph) (l : List (Nat × Nat)) (d : Degrees) : Prop where
  reverseCounts : ∀ c, d.reverseCounts c = inDegree l c
  unresolved : ∀ p, d.unresolved p = if g.isGote p then 0 else outDegree l p
  allowed : ∀ p, d.hasAllowedEdge p = true ↔ ∃ c, (p, c) ∈ l ∧ c ≠ kExitDisallowed
  exit : ∀ p, d.hasExitEdge p = true ↔ (p, kExitLeaf) ∈ l
  internalEdges : d.internalEdges = (internal l).length

section Counting

variable {g : Graph} {l done rest : List (Nat × Nat)} {d : Degrees} {p c : Nat}

theorem counted_zero : Counted g [] .zero where
  reverseCounts _ := rfl
  unresolved p := by
    rw [Degrees.zero]
    split <;> rfl
  allowed p := iff_of_false Bool.false_ne_true fun ⟨_, h, _⟩ => List.not_mem_nil h
  exit p := iff_of_false Bool.false_ne_true List.not_mem_nil
  internalEdges := rfl

theorem degrees_eq : g.degrees = g.edges.foldlM (fun s e => g.countEdge e.1 s e.2) .zero := by
  rw [degrees, edges, foldlM_flatMap]
  refine congrArg (fun f => (List.range g.nodeCount).foldlM f Degrees.zero) ?_
  funext s p
  rw [List.foldlM_map]

theorem kExitLeaf_ne : kExitLeaf ≠ kExitDisallowed := by decide

theorem countP_internal_concat {q : Nat × Nat → Bool} {e : Nat × Nat} :
    (internal (l ++ [e])).countP q =
      (internal l).countP q + if e.2 < kExitDisallowed ∧ q e = true then 1 else 0 := by
  rw [internal_append, List.countP_append, internal_singleton]
  by_cases h : e.2 < kExitDisallowed
  · rw [if_pos h, List.countP_singleton]
    by_cases hq : q e = true
    · rw [if_pos hq, if_pos ⟨h, hq⟩]
    · rw [if_neg hq, if_neg fun hand => hq hand.2]
  · rw [if_neg h, if_neg fun hand => h hand.1]
    rfl

theorem inDegree_concat {x : Nat} : inDegree (l ++ [(p, c)]) x =
    inDegree l x + if c < kExitDisallowed ∧ c = x then 1 else 0 := by
  rw [inDegree, countP_internal_concat, inDegree]
  simp only [decide_eq_true_eq]

theorem outDegree_concat {x : Nat} : outDegree (l ++ [(p, c)]) x =
    outDegree l x + if c < kExitDisallowed ∧ p = x then 1 else 0 := by
  rw [outDegree, countP_internal_concat, outDegree]
  simp only [decide_eq_true_eq]

/-- What an edge adds to the counts. -/
theorem Counted.concat {d' : Degrees} (hd : Counted g l d)
    (hreverse : ∀ x, d'.reverseCounts x =
      d.reverseCounts x + if c < kExitDisallowed ∧ c = x then 1 else 0)
    (hunresolved : ∀ q, d'.unresolved q =
      d.unresolved q + if (c < kExitDisallowed ∧ p = q) ∧ g.isGote q = false then 1 else 0)
    (hallowed : ∀ q, d'.hasAllowedEdge q = true ↔
      d.hasAllowedEdge q = true ∨ q = p ∧ c ≠ kExitDisallowed)
    (hexit : ∀ q, d'.hasExitEdge q = true ↔ d.hasExitEdge q = true ∨ q = p ∧ c = kExitLeaf)
    (hinternal : d'.internalEdges = d.internalEdges + if c < kExitDisallowed then 1 else 0) :
    Counted g (l ++ [(p, c)]) d' := by
  have hmem : ∀ q x, (q, x) ∈ l ++ [(p, c)] ↔ (q, x) ∈ l ∨ q = p ∧ x = c := by
    intro q x
    rw [List.mem_append, List.mem_singleton, Prod.mk.injEq]
  constructor
  · intro x
    rw [hreverse, hd.reverseCounts, inDegree_concat]
  · intro q
    rw [hunresolved, hd.unresolved, outDegree_concat]
    cases hq : g.isGote q with
    | true => rw [if_pos rfl, if_pos rfl, if_neg fun h => Bool.noConfusion h.2]
    | false => simp only [Bool.false_eq_true, if_false, and_true]
  · intro q
    rw [hallowed, hd.allowed]
    constructor
    · rintro (⟨x, hx, hne⟩ | ⟨rfl, hne⟩)
      · exact ⟨x, (hmem q x).mpr (Or.inl hx), hne⟩
      · exact ⟨c, (hmem q c).mpr (Or.inr ⟨rfl, rfl⟩), hne⟩
    · rintro ⟨x, hx, hne⟩
      obtain hx | ⟨rfl, rfl⟩ := (hmem q x).mp hx
      · exact Or.inl ⟨x, hx, hne⟩
      · exact Or.inr ⟨rfl, hne⟩
  · intro q
    rw [hexit, hd.exit, hmem]
    exact or_congr_right (and_congr_right fun _ => eq_comm)
  · rw [hinternal, hd.internalEdges, internal_append, List.length_append, internal_singleton]
    split <;> rfl

/-- One edge of the first pass. -/
theorem countEdge_counted (hg : g.WithinLimits) (hl : g.edges = done ++ (p, c) :: rest)
    (hd : Counted g done d) :
    ∃ d', g.countEdge p d c = .ok d' ∧ Counted g (done ++ [(p, c)]) d' := by
  have hmem : (p, c) ∈ g.edges := hl ▸ List.mem_append_right _ (List.mem_cons_self ..)
  obtain ⟨hp, hchild⟩ := mem_edges.mp hmem
  have hupdate : ∀ (f : Nat → Bool) q, Function.update f p true q = true ↔ f q = true ∨ q = p := by
    intro f q
    rw [Function.update_apply]
    by_cases hq : q = p
    · rw [if_pos hq]
      exact iff_of_true rfl (Or.inr hq)
    · rw [if_neg hq, or_iff_left hq]
  rw [countEdge]
  by_cases hdis : c = kExitDisallowed
  · rw [if_pos hdis]
    refine ⟨d, rfl, hd.concat (fun x => ?_) (fun q => ?_) (fun q => ?_) (fun q => ?_) ?_⟩
    · rw [if_neg fun h => h.1.ne hdis, Nat.add_zero]
    · rw [if_neg fun h => h.1.1.ne hdis, Nat.add_zero]
    · exact (or_iff_left fun h => h.2 hdis).symm
    · exact (or_iff_left fun h => kExitLeaf_ne (h.2.symm.trans hdis)).symm
    · rw [if_neg hdis.not_lt, Nat.add_zero]
  · rw [if_neg hdis]
    simp only
    by_cases hleaf : c = kExitLeaf
    · have hge : ¬ c < kExitDisallowed := by
        rw [hleaf]
        decide
      rw [if_pos hleaf]
      refine ⟨_, rfl, hd.concat (fun x => ?_) (fun q => ?_) (fun q => ?_) (fun q => ?_) ?_⟩
      · rw [if_neg fun h => hge h.1]
        rfl
      · rw [if_neg fun h => hge h.1.1]
        rfl
      · rw [hupdate, and_iff_left hdis]
      · rw [hupdate, and_iff_left hleaf]
      · rw [if_neg hge]
        rfl
    · have hc : c < g.nodeCount := (hg.children p hp c hchild).resolve_right (not_or.mpr ⟨hleaf, hdis⟩)
      have hlt : c < kExitDisallowed := hc.trans hg.nodes
      -- the counters are below their totals
      have hroom : d.reverseCounts c ≠ uint32Max := by
        have := countP_internal_lt (q := fun e => e.2 = c) hl hlt (decide_eq_true rfl)
        have hmax := hg.reverseDegree c hc
        rw [inDegree] at hmax
        rw [hd.reverseCounts, inDegree]
        omega
      rw [if_neg hleaf, if_neg (not_le.mpr hc), if_neg hroom]
      have hresult : ∀ d' : Degrees,
          d'.reverseCounts = Function.update d.reverseCounts c (d.reverseCounts c + 1) →
          d'.hasAllowedEdge = Function.update d.hasAllowedEdge p true →
          d'.hasExitEdge = d.hasExitEdge → d'.internalEdges = d.internalEdges + 1 →
          (∀ q, d'.unresolved q = d.unresolved q + if p = q ∧ g.isGote q = false then 1 else 0) →
          Counted g (done ++ [(p, c)]) d' := by
        intro d' hreverse hallowed hexit hinternal hunresolved
        refine hd.concat (fun x => ?_) (fun q => ?_) (fun q => ?_) (fun q => ?_) ?_
        · rw [hreverse, Function.update_apply]
          by_cases hx : x = c
          · rw [if_pos hx, if_pos ⟨hlt, hx.symm⟩, hx]
          · rw [if_neg hx, if_neg fun h => hx h.2.symm, Nat.add_zero]
        · rw [hunresolved]
          exact congrArg _ (if_congr (and_congr_left' (iff_and_self.mpr fun _ => hlt)) rfl rfl)
        · rw [hallowed, hupdate, and_iff_left hdis]
        · rw [hexit, or_iff_left fun h => hleaf h.2]
        · rw [hinternal, if_pos hlt]
      by_cases hgote : g.isGote p = true
      · rw [if_pos hgote]
        refine ⟨_, rfl, hresult _ rfl rfl rfl rfl fun q => ?_⟩
        rw [if_neg]
        · rfl
        · rintro ⟨rfl, hfalse⟩
          exact Bool.noConfusion (hgote.symm.trans hfalse)
      · have hroom' : d.unresolved p ≠ uint32Max := by
          have := countP_internal_lt (q := fun e => e.1 = p) hl hlt (decide_eq_true rfl)
          have hmax := (outDegree_le hp).trans (hg.edgeCount p hp)
          rw [outDegree] at hmax
          rw [hd.unresolved, if_neg hgote, outDegree]
          omega
        rw [if_neg hgote, if_neg hroom']
        refine ⟨_, rfl, hresult _ rfl rfl rfl rfl fun q => ?_⟩
        refine (Function.update_apply d.unresolved p _ q).trans ?_
        by_cases hq : q = p
        · subst hq
          rw [if_pos rfl, if_pos ⟨rfl, Bool.eq_false_iff.mpr hgote⟩]
        · rw [if_neg hq, if_neg fun h => hq h.1.symm, Nat.add_zero]

/-- The first pass does not fail. -/
theorem degrees_counted (hg : g.WithinLimits) : ∃ d, g.degrees = .ok d ∧ Counted g g.edges d := by
  rw [degrees_eq]
  exact foldlM_induction (fun _ _ _ _ hl hd => countEdge_counted hg hl hd) counted_zero

/-! ## Reversed edges -/

/-- The parents of `c` in the order of the edges. -/
def parentList (l : List (Nat × Nat)) (c : Nat) : List Nat :=
  PrefixSums.block Prod.snd Prod.fst (internal l) c

theorem length_parentList : (parentList l c).length = inDegree l c := by
  rw [parentList, PrefixSums.block, List.length_map, inDegree, List.countP_eq_length_filter]

theorem reverseParents_eq {offsets : Nat → Nat} {size : Nat → Nat}
    (hoffsets : offsets = reverseOffsets size) : g.reverseParents offsets =
      ((internal g.edges).foldl (PrefixSums.put size Prod.snd Prod.fst) ⟨fun _ => 0, fun _ => 0⟩).cells := by
  have hplace : ∀ (s : PrefixSums.Filling Nat) (e : Nat × Nat), placeParent offsets e.1 s e.2 =
      if e.2 < kExitDisallowed then PrefixSums.put size Prod.snd Prod.fst s e else s := by
    intro s e
    rw [placeParent, hoffsets]
    by_cases h : e.2 < kExitDisallowed
    · rw [if_neg (not_le.mpr h), if_pos h]
      rfl
    · rw [if_pos (not_lt.mp h), if_neg h]
  rw [reverseParents, internal, List.foldl_filter, edges, List.foldl_flatMap]
  congr 2
  funext s p
  rw [List.foldl_map]
  congr 1
  funext s c
  rw [hplace s (p, c)]
  simp only [decide_eq_true_eq]

/-- The slice between two offsets holds the parents. -/
theorem parentsOf_eq (hd : Counted g g.edges d) (c : Nat) :
    parentsOf (reverseOffsets d.reverseCounts) (g.reverseParents (reverseOffsets d.reverseCounts)) c =
      parentList g.edges c := by
  have hsize : ∀ i, (parentList g.edges i).length = d.reverseCounts i := by
    intro i
    rw [length_parentList, hd.reverseCounts]
  have hdiff : reverseOffsets d.reverseCounts (c + 1) - reverseOffsets d.reverseCounts c =
      d.reverseCounts c := by
    rw [reverseOffsets, PrefixSums.before, Nat.add_sub_cancel_left]
  rw [parentsOf, hdiff, reverseParents_eq rfl]
  exact PrefixSums.map_cells _ (fun i => (hsize i).le) (hsize c)

/-- The blocks together are all edges. -/
theorem reverseOffsets_nodeCount (hg : g.WithinLimits) (hd : Counted g g.edges d) :
    reverseOffsets d.reverseCounts g.nodeCount = d.internalEdges := by
  have hcounts : d.reverseCounts = fun c => (internal g.edges).countP fun e => e.2 = c :=
    funext hd.reverseCounts
  rw [reverseOffsets, hcounts, PrefixSums.before_countP, hd.internalEdges, List.countP_eq_length]
  intro e he
  obtain ⟨hmem, hlt⟩ := mem_internal.mp he
  obtain ⟨hp, hc⟩ := mem_edges.mp hmem
  refine decide_eq_true ((hg.children e.1 hp e.2 hc).resolve_right ?_)
  have hle : kExitDisallowed ≤ kExitLeaf := by decide
  omega

end Counting

/-! ## The search -/

/-- A finite node has the distance that its finite children give it. -/
structure Settled (g : Graph) (s : Search) (p : Nat) : Prop where
  gote : g.isGote p = true → (p, kExitLeaf) ∈ g.edges ∧ s.distance p = 1 ∨
    (p, kExitLeaf) ∉ g.edges ∧
      (∃ c ∈ s.queue, (p, c) ∈ internal g.edges ∧ s.distance p = s.distance c + 1) ∧
      ∀ c ∈ s.queue, (p, c) ∈ internal g.edges → s.distance p ≤ s.distance c + 1
  sente : g.isGote p = false → (∃ c, (p, c) ∈ g.edges ∧ c ≠ kExitDisallowed) ∧
    (∀ c, (p, c) ∈ internal g.edges → c ∈ s.queue ∧ s.distance c + 1 ≤ s.distance p) ∧
    (s.distance p = 1 ∨ ∃ c, (p, c) ∈ internal g.edges ∧ s.distance p = s.distance c + 1)

/-- The search while the parents of a node at distance `d` are visited; `v` are the edges that have
been visited so far. -/
structure Sound (g : Graph) (v : List (Nat × Nat)) (d : Nat) (s : Search) : Prop where
  nodup : s.queue.Nodup
  nodes : ∀ x ∈ s.queue, x < g.nodeCount
  finite : ∀ x, x ∈ s.queue ↔ s.distance x ≠ kExitDistanceInfinite
  bound : ∀ i x, s.queue[i]? = some x → 1 ≤ s.distance x ∧ s.distance x ≤ i + 1
  sorted : s.queue.Pairwise fun x y => s.distance x ≤ s.distance y
  near : ∀ x ∈ s.queue, s.distance x ≤ d + 1
  frontier : ∀ p c, (p, c) ∈ internal g.edges → c ∈ s.queue → (p, c) ∈ v ∨ d ≤ s.distance c
  visited : ∀ p c, (p, c) ∈ v → (g.isGote p = true → p ∈ s.queue) ∧ c ∈ s.queue ∧ s.distance c ≤ d
  pending : ∀ p < g.nodeCount, g.isGote p = false → p ∉ s.queue →
    s.unresolved p + v.countP (fun e => e.1 = p) = outDegree g.edges p ∧
      s.maxChildDistance p ≤ d ∧
      ((∃ c, (p, c) ∈ g.edges ∧ c ≠ kExitDisallowed) → 0 < s.unresolved p)
  unsettled : ∀ p, g.isGote p = true → p ∉ s.queue → (p, kExitLeaf) ∉ g.edges
  settled : ∀ p ∈ s.queue, Settled g s p

/-- The queue has grown, and finite nodes have kept their distances. -/
structure Extends (s s' : Search) : Prop where
  queue : s.queue <+: s'.queue
  distance : ∀ x ∈ s.queue, s'.distance x = s.distance x

section Search

variable {g : Graph} {v l rest : List (Nat × Nat)} {s s' : Search} {d p c : Nat}

theorem Extends.refl : Extends s s := ⟨List.prefix_rfl, fun _ _ => rfl⟩

theorem Extends.trans {s'' : Search} (h : Extends s s') (h' : Extends s' s'') : Extends s s'' :=
  ⟨h.queue.trans h'.queue, fun x hx => (h'.distance x (h.queue.subset hx)).trans (h.distance x hx)⟩

theorem Settled.congr (h : Settled g s p) (hqueue : s'.queue = s.queue)
    (hdistance : s'.distance = s.distance) : Settled g s' p := by
  constructor
  · rw [hqueue, hdistance]
    exact h.gote
  · rw [hqueue, hdistance]
    exact h.sente

theorem Sound.length_le (h : Sound g v d s) : s.queue.length ≤ g.nodeCount := by
  have hsub : s.queue ⊆ List.range g.nodeCount := fun x hx => List.mem_range.mpr (h.nodes x hx)
  have hlen := (h.nodup.subperm hsub).length_le
  rw [List.length_range] at hlen
  exact hlen

theorem Sound.distance_le (h : Sound g v d s) (hc : c ∈ s.queue) :
    1 ≤ s.distance c ∧ s.distance c ≤ s.queue.length := by
  obtain ⟨i, hi, rfl⟩ := List.getElem_of_mem hc
  obtain ⟨h1, h2⟩ := h.bound i _ (List.getElem?_eq_getElem hi)
  exact ⟨h1, by omega⟩

/-- Distances stay below the number that stands for infinity. -/
theorem Sound.distance_lt (hg : g.WithinLimits) (h : Sound g v d s) (hc : c ∈ s.queue) :
    s.distance c + 1 < kExitDistanceInfinite := by
  have h1 := (h.distance_le hc).2
  have h2 := h.length_le
  have h3 := hg.nodes
  have h4 : kExitDisallowed + 1 = kExitDistanceInfinite := by decide
  omega

theorem Sound.skip (h : Sound g v d s) (hp : p ∈ s.queue) (hc : c ∈ s.queue) (hd : s.distance c = d) :
    Sound g (v ++ [(p, c)]) d s where
  nodup := h.nodup
  nodes := h.nodes
  finite := h.finite
  bound := h.bound
  sorted := h.sorted
  near := h.near
  frontier q x hqx hx := (h.frontier q x hqx hx).imp_left (List.mem_append_left _)
  visited q x hqx := by
    obtain hqx | hqx := List.mem_append.mp hqx
    · exact h.visited q x hqx
    · cases List.mem_singleton.mp hqx
      exact ⟨fun _ => hp, hc, hd.le⟩
  pending q hq hsente hqueue := by
    have hne : p ≠ q := fun he => hqueue (he ▸ hp)
    rw [List.countP_append, List.countP_singleton, if_neg (by simpa using hne), Nat.add_zero]
    exact h.pending q hq hsente hqueue
  unsettled := h.unsettled
  settled := h.settled

/-- A Sente node that still waits for other children. -/
theorem Sound.lower (h : Sound g v d s) (hp : p ∉ s.queue) (hsente : g.isGote p = false)
    (hc : c ∈ s.queue) (hd : s.distance c = d) (hqueue : s'.queue = s.queue)
    (hdistance : s'.distance = s.distance)
    (hmax : s'.maxChildDistance = Function.update s.maxChildDistance p (max (s.maxChildDistance p) d))
    (hunresolved : s'.unresolved = Function.update s.unresolved p (s.unresolved p - 1))
    (htwo : 1 < s.unresolved p) : Sound g (v ++ [(p, c)]) d s' := by
  constructor
  · rw [hqueue]
    exact h.nodup
  · rw [hqueue]
    exact h.nodes
  · rw [hqueue, hdistance]
    exact h.finite
  · rw [hqueue, hdistance]
    exact h.bound
  · rw [hqueue, hdistance]
    exact h.sorted
  · rw [hqueue, hdistance]
    exact h.near
  · rw [hqueue, hdistance]
    exact fun q x hqx hx => (h.frontier q x hqx hx).imp_left (List.mem_append_left _)
  · rw [hqueue, hdistance]
    intro q x hqx
    obtain hqx | hqx := List.mem_append.mp hqx
    · exact h.visited q x hqx
    · cases List.mem_singleton.mp hqx
      exact ⟨fun hgote => Bool.noConfusion (hsente.symm.trans hgote), hc, hd.le⟩
  · rw [hqueue, hunresolved, hmax]
    intro q hq hq' hnot
    obtain ⟨hsum, hfar, hpos⟩ := h.pending q hq hq' hnot
    rw [List.countP_append, List.countP_singleton, Function.update_apply, Function.update_apply]
    by_cases hqp : q = p
    · subst hqp
      rw [if_pos rfl, if_pos rfl, if_pos (decide_eq_true rfl)]
      exact ⟨by omega, by omega, fun _ => by omega⟩
    · rw [if_neg hqp, if_neg hqp, if_neg (by simpa using Ne.symm hqp)]
      exact ⟨hsum, hfar, hpos⟩
  · rw [hqueue]
    exact h.unsettled
  · rw [hqueue]
    exact fun q hq => (h.settled q hq).congr hqueue hdistance

/-- A node that becomes finite through its child `c`, which is the last one of a Sente node. -/
theorem Sound.push (hg : g.WithinLimits) (h : Sound g v d s) (hp : p ∉ s.queue) (hc : c ∈ s.queue)
    (hd : s.distance c = d) (hedge : (p, c) ∈ internal g.edges)
    (hlast : g.isGote p = false → ∀ x, (p, x) ∈ internal g.edges → x ∈ s.queue ∧ s.distance x ≤ d)
    (hqueue : s'.queue = s.queue ++ [p])
    (hdistance : s'.distance = Function.update s.distance p (d + 1))
    (hunresolved : ∀ q, q ≠ p → s'.unresolved q = s.unresolved q)
    (hmax : ∀ q, q ≠ p → s'.maxChildDistance q = s.maxChildDistance q) :
    Sound g (v ++ [(p, c)]) d s' := by
  have hpos : ∀ x ∈ s.queue, x ≠ p := fun x hx he => hp (he ▸ hx)
  have hold : ∀ x ∈ s.queue, s'.distance x = s.distance x := by
    intro x hx
    rw [hdistance, Function.update_of_ne (hpos x hx)]
  have hnew : s'.distance p = d + 1 := by
    rw [hdistance, Function.update_self]
  have hmem : ∀ x, x ∈ s'.queue ↔ x ∈ s.queue ∨ x = p := by
    intro x
    rw [hqueue, List.mem_append, List.mem_singleton]
  have hlt : d + 1 < kExitDistanceInfinite := hd ▸ h.distance_lt hg hc
  constructor
  · rw [hqueue, List.nodup_append]
    exact ⟨h.nodup, List.nodup_singleton p, fun x hx y hy => List.mem_singleton.mp hy ▸ hpos x hx⟩
  · intro x hx
    obtain hx | rfl := (hmem x).mp hx
    · exact h.nodes x hx
    · exact (mem_edges.mp (mem_internal.mp hedge).1).1
  · intro x
    rw [hmem]
    by_cases hx : x = p
    · subst hx
      rw [hnew]
      exact iff_of_true (Or.inr rfl) hlt.ne
    · rw [or_iff_left hx, hdistance, Function.update_of_ne hx]
      exact h.finite x
  · intro i x hi
    rw [hqueue] at hi
    by_cases hlen : i < s.queue.length
    · rw [List.getElem?_append_left hlen] at hi
      rw [hold x (List.mem_of_getElem? hi)]
      exact h.bound i x hi
    · rw [List.getElem?_append_right (not_lt.mp hlen), List.getElem?_singleton] at hi
      split at hi
      · cases hi
        rw [hnew]
        have := (h.distance_le hc).2
        omega
      · cases hi
  · rw [hqueue, List.pairwise_append]
    refine ⟨?_, List.pairwise_singleton _ _, fun x hx y hy => ?_⟩
    · refine h.sorted.imp_of_mem fun hx hy hle => ?_
      rw [hold _ hx, hold _ hy]
      exact hle
    · rw [List.mem_singleton.mp hy, hold x hx, hnew]
      exact h.near x hx
  · intro x hx
    obtain hx | rfl := (hmem x).mp hx
    · rw [hold x hx]
      exact h.near x hx
    · exact hnew.le
  · intro q x hqx hx
    obtain hx | rfl := (hmem x).mp hx
    · rw [hold x hx]
      exact (h.frontier q x hqx hx).imp_left (List.mem_append_left _)
    · exact Or.inr (by omega)
  · intro q x hqx
    obtain hqx | hqx := List.mem_append.mp hqx
    · obtain ⟨h1, h2, h3⟩ := h.visited q x hqx
      exact ⟨fun hgote => (hmem q).mpr (Or.inl (h1 hgote)), (hmem x).mpr (Or.inl h2),
        (hold x h2).symm ▸ h3⟩
    · cases List.mem_singleton.mp hqx
      exact ⟨fun _ => (hmem p).mpr (Or.inr rfl), (hmem c).mpr (Or.inl hc), (hold c hc).symm ▸ hd.le⟩
  · intro q hq hsente hnot
    rw [hmem, not_or] at hnot
    rw [List.countP_append, List.countP_singleton, if_neg (by simpa using Ne.symm hnot.2), Nat.add_zero,
      hunresolved q hnot.2, hmax q hnot.2]
    exact h.pending q hq hsente hnot.1
  · intro q hgote hnot
    rw [hmem, not_or] at hnot
    exact h.unsettled q hgote hnot.1
  · intro q hq
    obtain hq | rfl := (hmem q).mp hq
    · -- a new finite child is too far away to matter
      have hq' := h.settled q hq
      constructor
      · intro hgote
        rw [hold q hq]
        refine (hq'.gote hgote).imp_right fun ⟨hno, ⟨x, hx, hqx, heq⟩, hall⟩ => ⟨hno, ?_, ?_⟩
        · exact ⟨x, (hmem x).mpr (Or.inl hx), hqx, (hold x hx).symm ▸ heq⟩
        · intro y hy hqy
          obtain hy | rfl := (hmem y).mp hy
          · rw [hold y hy]
            exact hall y hy hqy
          · have := h.near q hq
            omega
      · intro hsente
        obtain ⟨hallowed, hall, hone⟩ := hq'.sente hsente
        rw [hold q hq]
        refine ⟨hallowed, fun x hqx => ?_, hone.imp_right ?_⟩
        · obtain ⟨hx, hle⟩ := hall x hqx
          rw [hold x hx]
          exact ⟨(hmem x).mpr (Or.inl hx), hle⟩
        · rintro ⟨x, hqx, heq⟩
          rw [← hold x (hall x hqx).1] at heq
          exact ⟨x, hqx, heq⟩
    · constructor
      · intro hgote
        refine Or.inr ⟨h.unsettled q hgote hp, ⟨c, (hmem c).mpr (Or.inl hc), hedge, ?_⟩, ?_⟩
        · rw [hnew, hold c hc, hd]
        · intro y hy hqy
          obtain hy | rfl := (hmem y).mp hy
          · -- the edges of nearer children have been visited
            rw [hnew, hold y hy]
            obtain hv | hle := h.frontier q y hqy hy
            · exact absurd ((h.visited q y hv).1 hgote) hp
            · omega
          · omega
      · intro hsente
        refine ⟨⟨c, (mem_internal.mp hedge).1, (mem_internal.mp hedge).2.ne⟩, fun x hqx => ?_,
          Or.inr ⟨c, hedge, ?_⟩⟩
        · obtain ⟨hx, hle⟩ := hlast hsente x hqx
          rw [hold x hx, hnew]
          exact ⟨(hmem x).mpr (Or.inl hx), by omega⟩
        · rw [hnew, hold c hc, hd]

/-- Where a part holds as many elements of a kind as the whole, it holds all of them. -/
theorem mem_of_countP_eq {α : Type} {l₁ l₂ : List α} {q : α → Bool} (hsub : l₁.Subperm l₂)
    (hcount : l₂.countP q ≤ l₁.countP q) {a : α} (ha : a ∈ l₂) (hq : q a = true) : a ∈ l₁ := by
  rw [List.countP_eq_length_filter, List.countP_eq_length_filter] at hcount
  have hperm := (hsub.filter q).perm_of_length_le hcount
  exact (List.mem_filter.mp (hperm.mem_iff.mpr (List.mem_filter.mpr ⟨ha, hq⟩))).1

theorem enqueue_distance (s : Search) (p : Nat) (h : d + 1 < kExitDistanceInfinite) :
    (enqueue s p (d + 1)).distance = Function.update s.distance p (d + 1) := by
  rw [enqueue, Nat.mod_eq_of_lt]
  have hle : kExitDistanceInfinite < 2 ^ 32 := by decide
  omega

/-- One reversed edge: the parent has a distance, gets one, or waits for other children. -/
theorem visit_sound (hg : g.WithinLimits) (h : Sound g v d s) (hc : c ∈ s.queue)
    (hd : s.distance c = d) (hsub : (v ++ [(p, c)]).Subperm (internal g.edges)) :
    ∃ s', g.visit d s p = .ok s' ∧ Sound g (v ++ [(p, c)]) d s' ∧ Extends s s' := by
  have hedge : (p, c) ∈ internal g.edges :=
    hsub.subset (List.mem_append_right _ (List.mem_singleton_self _))
  have hlt : d + 1 < kExitDistanceInfinite := hd ▸ h.distance_lt hg hc
  rw [visit]
  by_cases hp : p ∈ s.queue
  · rw [if_pos ((h.finite p).mp hp)]
    exact ⟨s, rfl, h.skip hp hc hd, .refl⟩
  rw [if_neg (mt (h.finite p).mpr hp)]
  have hextends : ∀ s' : Search, s'.queue = s.queue ++ [p] →
      s'.distance = Function.update s.distance p (d + 1) → Extends s s' := by
    intro s' hqueue hdistance
    refine ⟨hqueue ▸ List.prefix_append _ _, fun x hx => ?_⟩
    rw [hdistance, Function.update_of_ne fun he : x = p => hp (he ▸ hx)]
  by_cases hgote : g.isGote p = true
  · rw [if_pos hgote, if_neg (by omega : ¬ d = kExitDistanceInfinite)]
    refine ⟨_, rfl, h.push hg hp hc hd hedge ?_ rfl (enqueue_distance s p hlt) (fun _ _ => rfl)
      (fun _ _ => rfl), hextends _ rfl (enqueue_distance s p hlt)⟩
    exact fun hsente => Bool.noConfusion (hgote.symm.trans hsente)
  · have hsente : g.isGote p = false := Bool.eq_false_iff.mpr hgote
    obtain ⟨hsum, hfar, -⟩ := h.pending p (mem_edges.mp (mem_internal.mp hedge).1).1 hsente hp
    -- the edge is one of those that the counter counts
    have hcount := hsub.countP_le fun e => decide (e.1 = p)
    rw [List.countP_append, List.countP_singleton, if_pos (decide_eq_true rfl), ← outDegree] at hcount
    rw [if_neg hgote]
    simp only
    rw [if_neg (by omega : ¬ s.unresolved p = 0)]
    simp only [Function.update_self, max_eq_right hfar]
    by_cases hlast : s.unresolved p - 1 = 0
    · rw [if_pos hlast]
      refine ⟨_, rfl, h.push hg hp hc hd hedge (fun _ x hx => ?_) rfl (enqueue_distance _ p hlt)
        (fun q hq => ?_) (fun q hq => ?_), hextends _ rfl (enqueue_distance _ p hlt)⟩
      · have hall := mem_of_countP_eq (q := fun e => decide (e.1 = p)) hsub (by
          rw [List.countP_append, List.countP_singleton, if_pos (decide_eq_true rfl), ← outDegree]
          omega) hx (decide_eq_true rfl)
        obtain hv | hv := List.mem_append.mp hall
        · exact (h.visited p x hv).2
        · cases List.mem_singleton.mp hv
          exact ⟨hc, hd.le⟩
      · exact Function.update_of_ne hq _ _
      · exact Function.update_of_ne hq _ _
    · rw [if_neg hlast]
      refine ⟨_, rfl, h.lower hp hsente hc hd rfl rfl ?_ rfl (by omega),
        List.prefix_rfl, fun _ _ => rfl⟩
      rw [max_eq_right hfar]

/-- The edges into the nodes `l`. -/
def edgesInto (g : Graph) (l : List Nat) : List (Nat × Nat) :=
  l.flatMap fun c => (parentList g.edges c).map fun p => (p, c)

theorem map_parentList (c : Nat) : ((parentList g.edges c).map fun p => (p, c)) =
    (internal g.edges).filter fun e => e.2 = c := by
  rw [parentList, PrefixSums.block, List.map_map]
  conv_rhs => rw [← List.map_id ((internal g.edges).filter fun e => e.2 = c)]
  refine List.map_congr_left fun e he => ?_
  rw [Function.comp_apply, ← of_decide_eq_true (List.mem_filter.mp he).2, id_eq]

theorem mem_edgesInto {l : List Nat} :
    (p, c) ∈ edgesInto g l ↔ (p, c) ∈ internal g.edges ∧ c ∈ l := by
  rw [edgesInto, List.mem_flatMap]
  simp only [map_parentList, List.mem_filter, decide_eq_true_eq]
  constructor
  · rintro ⟨x, hx, hmem, rfl⟩
    exact ⟨hmem, hx⟩
  · exact fun ⟨hmem, hc⟩ => ⟨c, hc, hmem, rfl⟩

/-- Every edge leads into one node. -/
theorem edgesInto_perm {l : List Nat} (hl : l.Nodup) :
    (edgesInto g l).Perm ((internal g.edges).filter fun e => e.2 ∈ l) := by
  induction l with
  | nil =>
    rw [List.filter_eq_nil_iff.mpr fun e _ h => List.not_mem_nil (of_decide_eq_true h)]
    exact List.Perm.nil
  | cons c l ih =>
    obtain ⟨hc, hl⟩ := List.nodup_cons.mp hl
    rw [edgesInto, List.flatMap_cons, map_parentList]
    refine ((ih hl).append_left _).trans ?_
    have hsplit := List.filter_append_perm (fun e : Nat × Nat => decide (e.2 = c))
      ((internal g.edges).filter fun e => e.2 ∈ c :: l)
    rw [List.filter_filter, List.filter_filter] at hsplit
    have hown : (internal g.edges).filter (fun e => decide (e.2 = c)) =
        (internal g.edges).filter fun e => decide (e.2 = c) && decide (e.2 ∈ c :: l) := by
      refine List.filter_congr fun e _ => ?_
      by_cases he : e.2 = c
      · rw [decide_eq_true he, decide_eq_true (he ▸ List.mem_cons_self), Bool.and_true]
      · rw [decide_eq_false he, Bool.false_and]
    have hothers : (internal g.edges).filter (fun e => decide (e.2 ∈ l)) =
        (internal g.edges).filter fun e => !decide (e.2 = c) && decide (e.2 ∈ c :: l) := by
      refine List.filter_congr fun e _ => ?_
      by_cases he : e.2 = c
      · rw [decide_eq_true he, decide_eq_false (he ▸ hc), Bool.not_true, Bool.false_and]
      · rw [decide_eq_false he, Bool.not_false, Bool.true_and]
        exact decide_eq_decide.mpr (by rw [List.mem_cons, or_iff_right he])
    rw [hown, hothers]
    exact hsplit

theorem edgesInto_subperm {l : List Nat} (hl : l.Nodup) :
    (edgesInto g l).Subperm (internal g.edges) :=
  (edgesInto_perm hl).subperm.trans List.filter_sublist.subperm

/-- One pass of the outer loop. -/
theorem foldlM_visit_sound {l : List Nat} (hg : g.WithinLimits) (h : Sound g (edgesInto g l) d s)
    (hc : c ∈ s.queue) (hd : s.distance c = d) (hl : (l ++ [c]).Nodup) :
    ∃ s', (parentList g.edges c).foldlM (g.visit d) s = .ok s' ∧
      Sound g (edgesInto g (l ++ [c])) d s' ∧ Extends s s' := by
  have hinto : edgesInto g (l ++ [c]) =
      edgesInto g l ++ (parentList g.edges c).map fun p => (p, c) := by
    rw [edgesInto, List.flatMap_append, List.flatMap_singleton, edgesInto]
  have hsub := hinto ▸ edgesInto_subperm (g := g) hl
  have hstep : ∀ done p rest u, parentList g.edges c = done ++ p :: rest →
      Sound g (edgesInto g l ++ done.map fun p => (p, c)) d u ∧ Extends s u →
      ∃ u', g.visit d u p = .ok u' ∧
        Sound g (edgesInto g l ++ (done ++ [p]).map fun p => (p, c)) d u' ∧ Extends s u' := by
    rintro done p rest u hparents ⟨hu, hext⟩
    -- the edges visited so far are a part of all edges
    have hpart : (edgesInto g l ++ (done ++ [p]).map fun p => (p, c)).Subperm (internal g.edges) := by
      refine List.Subperm.trans (List.Sublist.subperm ?_) hsub
      rw [hparents, show done ++ p :: rest = (done ++ [p]) ++ rest by simp, @List.map_append _ _ _ _ rest]
      exact List.Sublist.append_left (List.sublist_append_left _ _) _
    have happend : (edgesInto g l ++ (done ++ [p]).map fun p => (p, c)) =
        (edgesInto g l ++ done.map fun p => (p, c)) ++ [(p, c)] := by
      rw [List.map_append, List.append_assoc]
      rfl
    rw [happend] at hpart ⊢
    obtain ⟨u', hu', hsound, hext'⟩ := visit_sound hg hu (hext.queue.subset hc)
      ((hext.distance c hc).trans hd) hpart
    exact ⟨u', hu', hsound, hext.trans hext'⟩
  obtain ⟨s', hs', hsound, hextends⟩ := foldlM_induction hstep
    ⟨(List.append_nil (edgesInto g l)).symm ▸ h, .refl⟩
  exact ⟨s', hs', hinto ▸ hsound, hextends⟩

/-- Passing on to a node that is farther away. -/
theorem Sound.mono {d' : Nat} (h : Sound g v d s) (hle : d ≤ d')
    (hfrontier : ∀ p c, (p, c) ∈ internal g.edges → c ∈ s.queue → (p, c) ∈ v ∨ d' ≤ s.distance c) :
    Sound g v d' s where
  nodup := h.nodup
  nodes := h.nodes
  finite := h.finite
  bound := h.bound
  sorted := h.sorted
  near x hx := (h.near x hx).trans (Nat.succ_le_succ hle)
  frontier := hfrontier
  visited p c hpc := ⟨(h.visited p c hpc).1, (h.visited p c hpc).2.1, (h.visited p c hpc).2.2.trans hle⟩
  pending p hp hsente hnot :=
    ⟨(h.pending p hp hsente hnot).1, (h.pending p hp hsente hnot).2.1.trans hle,
      (h.pending p hp hsente hnot).2.2⟩
  unsettled := h.unsettled
  settled := h.settled

/-- The queue is in order of distance. -/
theorem Sound.distance_mono {i j x y : Nat} (h : Sound g v d s) (hij : i ≤ j)
    (hx : s.queue[i]? = some x) (hy : s.queue[j]? = some y) : s.distance x ≤ s.distance y := by
  obtain ⟨hi, rfl⟩ := List.getElem?_eq_some_iff.mp hx
  obtain ⟨hj, rfl⟩ := List.getElem?_eq_some_iff.mp hy
  obtain hlt | rfl := hij.lt_or_eq
  · exact List.pairwise_iff_getElem.mp h.sorted i j hi hj hlt
  · exact le_rfl

/-- The outer loop ends once every finite node has been taken from the queue. -/
theorem drain_sound {parents : Nat → List Nat} (hg : g.WithinLimits)
    (hparents : ∀ c, parents c = parentList g.edges c) (fuel head : Nat)
    (hhead : head ≤ s.queue.length) (h : Sound g (edgesInto g (s.queue.take head)) d s)
    (hnext : ∀ x, s.queue[head]? = some x → d ≤ s.distance x) (hfuel : g.nodeCount < fuel + head) :
    ∃ s' d', g.drain parents fuel head s = .ok s' ∧ Sound g (edgesInto g s'.queue) d' s' := by
  induction fuel generalizing head s d with
  | zero =>
    have := h.length_le
    omega
  | succ fuel ih =>
    rw [drain]
    by_cases hdone : s.queue.length ≤ head
    · rw [if_pos hdone]
      rw [List.take_of_length_le hdone] at h
      exact ⟨s, d, rfl, h⟩
    rw [if_neg hdone]
    have hlt : head < s.queue.length := not_le.mp hdone
    obtain ⟨x, hx⟩ : ∃ x, s.queue[head]? = some x := ⟨_, List.getElem?_eq_getElem hlt⟩
    have hmem : x ∈ s.queue := List.mem_of_getElem? hx
    have htake : s.queue.take (head + 1) = s.queue.take head ++ [x] := by
      rw [List.take_add_one, hx]
      rfl
    have hsound : Sound g (edgesInto g (s.queue.take head)) (s.distance x) s := by
      refine h.mono (hnext x hx) fun p c hpc hc => ?_
      obtain ⟨j, hj, rfl⟩ := List.getElem_of_mem hc
      by_cases hle : j < head
      · exact Or.inl (mem_edgesInto.mpr ⟨hpc, List.mem_take_iff_getElem.mpr ⟨j, by omega, rfl⟩⟩)
      · exact Or.inr (h.distance_mono (not_lt.mp hle) hx (List.getElem?_eq_getElem hj))
    obtain ⟨s', hs', hsound', hextends⟩ := foldlM_visit_sound hg hsound hmem rfl
      (htake ▸ h.nodup.sublist (List.take_sublist _ _))
    have htake' : s'.queue.take (head + 1) = s.queue.take head ++ [x] := by
      obtain ⟨t, ht⟩ := hextends.queue
      rw [← ht, List.take_append_of_le_length hlt, htake]
    have hx' : s'.queue[head]? = some x := by
      obtain ⟨t, ht⟩ := hextends.queue
      rw [← ht, List.getElem?_append_left hlt, hx]
    have hgetD : s.queue.getD head 0 = x := by
      rw [List.getD_eq_getElem?_getD, hx, Option.getD_some]
    rw [hgetD]
    simp only
    rw [hparents, hs']
    refine ih (head + 1) ?_ (htake' ▸ hsound') (fun y hy => ?_) (by omega)
    · exact (List.getElem?_eq_some_iff.mp hx').1
    · rw [← hextends.distance x hmem]
      exact hsound'.distance_mono (Nat.le_succ head) hx' hy

end Search

/-! ## The first nodes of the queue -/

section Start

variable {g : Graph} {d : Degrees}

/-- The nodes that are finite at once have distance 1. -/
theorem foldl_seed (l : List Nat) :
    l.foldl (g.seed d) ⟨fun _ => kExitDistanceInfinite, fun _ => 0, d.unresolved, []⟩ =
      ⟨fun x => if x ∈ l.filter (g.immediatelyFinite d) then 1 else kExitDistanceInfinite, fun _ => 0,
        d.unresolved, l.filter (g.immediatelyFinite d)⟩ := by
  induction l using List.reverseRecOn with
  | nil =>
    rw [List.foldl_nil, List.filter_nil]
    simp only [List.not_mem_nil, if_false]
  | append_singleton l n ih =>
    rw [List.foldl_append, ih, List.foldl_cons, List.foldl_nil, seed, List.filter_append,
      List.filter_singleton]
    by_cases hn : g.immediatelyFinite d n = true
    · rw [if_pos hn, hn]
      simp only [cond_true, Search.mk.injEq, and_true]
      funext x
      have hmem : x ∈ l.filter (g.immediatelyFinite d) ++ [n] ↔
          x ∈ l.filter (g.immediatelyFinite d) ∨ x = n := by
        rw [List.mem_append, List.mem_singleton]
      rw [Function.update_apply]
      by_cases hx : x = n
      · rw [if_pos hx, if_pos (hmem.mpr (Or.inr hx))]
      · rw [if_neg hx]
        exact if_congr (hmem.trans (or_iff_left hx)).symm rfl rfl
    · rw [if_neg hn, Bool.eq_false_iff.mpr hn, cond_false, List.append_nil]

theorem immediatelyFinite_iff (hd : Counted g g.edges d) {p : Nat} : g.immediatelyFinite d p = true ↔
    (g.isGote p = true → (p, kExitLeaf) ∈ g.edges) ∧ (g.isGote p = false →
      (∃ c, (p, c) ∈ g.edges ∧ c ≠ kExitDisallowed) ∧ outDegree g.edges p = 0) := by
  rw [immediatelyFinite]
  cases hp : g.isGote p with
  | true =>
    rw [if_pos rfl, hd.exit]
    exact ⟨fun h => ⟨fun _ => h, fun h => Bool.noConfusion h⟩, fun h => h.1 rfl⟩
  | false =>
    rw [if_neg Bool.false_ne_true, Bool.and_eq_true, beq_iff_eq, hd.allowed, hd.unresolved, hp,
      if_neg Bool.false_ne_true]
    exact ⟨fun h => ⟨fun h => Bool.noConfusion h, fun _ => h⟩, fun h => h.2 rfl⟩

theorem outDegree_eq_zero {l : List (Nat × Nat)} {p : Nat} :
    outDegree l p = 0 ↔ ∀ c, (p, c) ∉ internal l := by
  rw [outDegree, List.countP_eq_zero]
  constructor
  · exact fun h c hc => h _ hc (decide_eq_true rfl)
  · rintro h ⟨q, c⟩ he hq
    exact h c (of_decide_eq_true hq ▸ he)

/-- The search before the first pass of the outer loop. -/
theorem start_sound (hd : Counted g g.edges d) : Sound g [] 1 (g.start d) := by
  rw [start, foldl_seed]
  set l := (List.range g.nodeCount).filter (g.immediatelyFinite d) with hl
  have hmem : ∀ x, x ∈ l ↔ x < g.nodeCount ∧ g.immediatelyFinite d x = true := by
    intro x
    rw [hl, List.mem_filter, List.mem_range]
  have hone : ∀ x ∈ l, (if x ∈ l then 1 else kExitDistanceInfinite) = 1 := fun x hx => if_pos hx
  have hnode : ∀ {p c}, (p, c) ∈ g.edges → p < g.nodeCount := fun hpc => (mem_edges.mp hpc).1
  constructor
  · exact List.nodup_range.filter _
  · exact fun x hx => ((hmem x).mp hx).1
  · intro x
    simp only
    by_cases hx : x ∈ l
    · rw [if_pos hx]
      exact iff_of_true hx (by decide)
    · rw [if_neg hx]
      exact iff_of_false hx (not_not.mpr rfl)
  · intro i x hx
    simp only
    rw [hone x (List.mem_of_getElem? hx)]
    exact ⟨le_rfl, Nat.le_add_left 1 i⟩
  · refine List.pairwise_iff_getElem.mpr fun i j hi hj _ => ?_
    simp only
    rw [hone _ (List.getElem_mem hi), hone _ (List.getElem_mem hj)]
  · intro x hx
    simp only
    rw [hone x hx]
    decide
  · intro p c _ hc
    simp only
    rw [hone c hc]
    exact Or.inr le_rfl
  · exact fun p c h => absurd h List.not_mem_nil
  · intro p hp hsente hnot
    simp only
    have hunresolved : d.unresolved p = outDegree g.edges p := by
      rw [hd.unresolved, hsente, if_neg Bool.false_ne_true]
    refine ⟨by rw [hunresolved]; rfl, Nat.zero_le 1, fun hallowed => ?_⟩
    rw [hunresolved, Nat.pos_iff_ne_zero]
    intro hzero
    refine hnot ((hmem p).mpr ⟨hp, (immediatelyFinite_iff hd).mpr ⟨fun hgote => ?_, fun _ => ⟨hallowed, hzero⟩⟩⟩)
    exact Bool.noConfusion (hsente.symm.trans hgote)
  · intro p hgote hnot hexit
    refine hnot ((hmem p).mpr ⟨hnode hexit, (immediatelyFinite_iff hd).mpr ⟨fun _ => hexit, fun hsente => ?_⟩⟩)
    exact Bool.noConfusion (hsente.symm.trans hgote)
  · intro p hp
    obtain ⟨hgote, hsente⟩ := (immediatelyFinite_iff hd).mp ((hmem p).mp hp).2
    refine ⟨fun h => Or.inl ⟨hgote h, hone p hp⟩, fun h => ⟨(hsente h).1, fun c hc => ?_, Or.inl (hone p hp)⟩⟩
    exact absurd hc (outDegree_eq_zero.mp (hsente h).2 c)

end Start

/-! ## The game -/

/-- The game on the graph: Gote wants to leave it. -/
def arena (g : Graph) : ExitGame.Arena Nat where
  minimizer n := g.isGote n = true
  edges n := if n < g.nodeCount then
    ((g.children n).filter fun c => c ≠ kExitDisallowed).map fun c => if c = kExitLeaf then none else some c
    else []

/-- A distance as a number of plies. -/
def GoteExitSolution.plies (distance : Nat → Nat) (n : Nat) : ℕ∞ :=
  if distance n = kExitDistanceInfinite then ⊤ else distance n

section Game

variable {g : Graph} {s : Search} {d p c : Nat}

theorem none_mem_edges : none ∈ g.arena.edges p ↔ (p, kExitLeaf) ∈ g.edges := by
  rw [arena, mem_edges]
  simp only
  by_cases hp : p < g.nodeCount
  · rw [if_pos hp, List.mem_map, and_iff_right hp]
    constructor
    · rintro ⟨c, hc, hleaf⟩
      by_cases h : c = kExitLeaf
      · exact h ▸ (List.mem_filter.mp hc).1
      · rw [if_neg h] at hleaf
        cases hleaf
    · exact fun h => ⟨kExitLeaf, List.mem_filter.mpr ⟨h, by decide⟩, if_pos rfl⟩
  · rw [if_neg hp]
    exact iff_of_false List.not_mem_nil fun h => hp h.1

theorem some_mem_edges (hg : g.WithinLimits) :
    some c ∈ g.arena.edges p ↔ (p, c) ∈ internal g.edges := by
  rw [arena, mem_internal, mem_edges]
  simp only
  by_cases hp : p < g.nodeCount
  · rw [if_pos hp, List.mem_map, and_iff_right hp]
    constructor
    · rintro ⟨x, hx, hsome⟩
      obtain ⟨hx, hne⟩ := List.mem_filter.mp hx
      by_cases h : x = kExitLeaf
      · rw [if_pos h] at hsome
        cases hsome
      · rw [if_neg h, Option.some.injEq] at hsome
        rw [hsome] at hx hne h
        refine ⟨hx, (hg.children p hp c hx).resolve_right ?_ |>.trans hg.nodes⟩
        exact not_or.mpr ⟨h, of_decide_eq_true hne⟩
    · rintro ⟨hc, hlt⟩
      have hle : kExitDisallowed ≤ kExitLeaf := by decide
      exact ⟨c, List.mem_filter.mpr ⟨hc, decide_eq_true hlt.ne⟩, if_neg (by omega)⟩
  · rw [if_neg hp]
    exact iff_of_false List.not_mem_nil fun h => hp h.1.1

theorem edges_ne_nil : g.arena.edges p ≠ [] ↔ ∃ c, (p, c) ∈ g.edges ∧ c ≠ kExitDisallowed := by
  rw [arena]
  simp only [mem_edges]
  by_cases hp : p < g.nodeCount
  · rw [if_pos hp, ne_eq, List.map_eq_nil_iff, List.filter_eq_nil_iff]
    simp only [hp, true_and, decide_eq_true_eq, not_forall, not_not, exists_prop]
  · rw [if_neg hp]
    exact iff_of_false (not_not.mpr rfl) fun ⟨_, h, _⟩ => hp h.1

theorem plies_of_mem {v : List (Nat × Nat)} (h : Sound g v d s) (hp : p ∈ s.queue) :
    GoteExitSolution.plies s.distance p = s.distance p := if_neg ((h.finite p).mp hp)

theorem plies_of_not_mem {v : List (Nat × Nat)} (h : Sound g v d s) (hp : p ∉ s.queue) :
    GoteExitSolution.plies s.distance p = ⊤ := if_pos (not_not.mp (mt (h.finite p).mpr hp))

/-- The distance of a Gote node. -/
theorem plies_gote (hg : g.WithinLimits) (h : Sound g (edgesInto g s.queue) d s)
    (hgote : g.isGote p = true) : GoteExitSolution.plies s.distance p =
      1 + ⨅ e ∈ g.arena.edges p, ExitGame.cost (GoteExitSolution.plies s.distance) e := by
  by_cases hp : p ∈ s.queue
  · rw [plies_of_mem h hp]
    obtain ⟨hexit, hone⟩ | ⟨hno, ⟨c, hc, hpc, heq⟩, hall⟩ := (h.settled p hp).gote hgote
    · have hzero : (⨅ e ∈ g.arena.edges p, ExitGame.cost (GoteExitSolution.plies s.distance) e) = 0 :=
        le_antisymm (iInf₂_le none (none_mem_edges.mpr hexit)) zero_le
      rw [hzero, hone]
      rfl
    · have hleast : (⨅ e ∈ g.arena.edges p, ExitGame.cost (GoteExitSolution.plies s.distance) e) =
          s.distance c := by
        apply le_antisymm
        · refine (iInf₂_le (some c) ((some_mem_edges hg).mpr hpc)).trans ?_
          exact (plies_of_mem h hc).le
        · refine le_iInf₂ fun e he => ?_
          cases e with
          | none => exact absurd (none_mem_edges.mp he) hno
          | some x =>
            show _ ≤ GoteExitSolution.plies s.distance x
            by_cases hx : x ∈ s.queue
            · rw [plies_of_mem h hx, Nat.cast_le]
              have := hall x hx ((some_mem_edges hg).mp he)
              omega
            · rw [plies_of_not_mem h hx]
              exact le_top
      rw [hleast, heq, Nat.cast_add, Nat.cast_one, add_comm]
  · -- no edge leads out or to a finite node
    have htop : (⨅ e ∈ g.arena.edges p, ExitGame.cost (GoteExitSolution.plies s.distance) e) = ⊤ := by
      refine top_le_iff.mp (le_iInf₂ fun e he => ?_)
      cases e with
      | none => exact absurd (none_mem_edges.mp he) (h.unsettled p hgote hp)
      | some x =>
        refine (plies_of_not_mem h fun hx => hp ?_).ge
        exact (h.visited p x (mem_edgesInto.mpr ⟨(some_mem_edges hg).mp he, hx⟩)).1 hgote
    rw [htop, add_top, plies_of_not_mem h hp]

/-- An infinite Sente node with an edge has one to an infinite node. -/
theorem exists_infinite_child (h : Sound g (edgesInto g s.queue) d s) (hsente : g.isGote p = false)
    (hp : p ∉ s.queue) (hne : g.arena.edges p ≠ []) :
    ∃ c, (p, c) ∈ internal g.edges ∧ c ∉ s.queue := by
  by_contra hno
  rw [edges_ne_nil] at hne
  obtain ⟨c, hc, hdis⟩ := hne
  obtain ⟨hsum, -, hpos⟩ := h.pending p (mem_edges.mp hc).1 hsente hp
  have hcount : (edgesInto g s.queue).countP (fun e => decide (e.1 = p)) = outDegree g.edges p := by
    rw [(edgesInto_perm h.nodup).countP_eq, List.countP_filter, outDegree]
    refine List.countP_congr fun e he => ?_
    rw [Bool.and_eq_true, decide_eq_true_eq, decide_eq_true_eq]
    refine and_iff_left_of_imp fun hep => ?_
    by_contra hnot
    exact hno ⟨e.2, hep ▸ he, hnot⟩
  have := hpos ⟨c, hc, hdis⟩
  omega

/-- The distance of a Sente node. -/
theorem plies_sente (hg : g.WithinLimits) (h : Sound g (edgesInto g s.queue) d s)
    (hsente : g.isGote p = false) (hne : g.arena.edges p ≠ []) :
    GoteExitSolution.plies s.distance p =
      1 + ⨆ e ∈ g.arena.edges p, ExitGame.cost (GoteExitSolution.plies s.distance) e := by
  by_cases hp : p ∈ s.queue
  · obtain ⟨-, hall, hattained⟩ := (h.settled p hp).sente hsente
    have hpos : 1 ≤ s.distance p := (h.distance_le hp).1
    have hgreatest : (⨆ e ∈ g.arena.edges p, ExitGame.cost (GoteExitSolution.plies s.distance) e) =
        (s.distance p - 1 : ℕ) := by
      apply le_antisymm
      · refine iSup₂_le fun e he => ?_
        cases e with
        | none => exact zero_le
        | some x =>
          obtain ⟨hx, hle⟩ := hall x ((some_mem_edges hg).mp he)
          refine (plies_of_mem h hx).le.trans ?_
          rw [Nat.cast_le]
          omega
      · obtain hone | ⟨c, hpc, heq⟩ := hattained
        · rw [hone]
          exact zero_le
        · have hle := le_iSup₂ (f := fun e (_ : e ∈ g.arena.edges p) =>
            ExitGame.cost (GoteExitSolution.plies s.distance) e) (some c) ((some_mem_edges hg).mpr hpc)
          refine le_trans (le_of_eq ?_) hle
          rw [heq, Nat.add_sub_cancel]
          exact (plies_of_mem h (hall c hpc).1).symm
    rw [hgreatest, plies_of_mem h hp, ← Nat.cast_one, ← Nat.cast_add, Nat.add_sub_cancel' hpos]
  · obtain ⟨c, hpc, hc⟩ := exists_infinite_child h hsente hp hne
    have hle := le_iSup₂ (f := fun e (_ : e ∈ g.arena.edges p) =>
      ExitGame.cost (GoteExitSolution.plies s.distance) e) (some c) ((some_mem_edges hg).mpr hpc)
    have htop : ExitGame.cost (GoteExitSolution.plies s.distance) (some c) = ⊤ := plies_of_not_mem h hc
    rw [htop, top_le_iff] at hle
    rw [hle, add_top, plies_of_not_mem h hp]

/-- Once the queue is empty, the distances satisfy the optimality equations. -/
theorem bellman_of_sound (hg : g.WithinLimits) (h : Sound g (edgesInto g s.queue) d s) :
    g.arena.Bellman (GoteExitSolution.plies s.distance) where
  min _ hgote := plies_gote hg h hgote
  max _ hsente hne := plies_sente hg h (Bool.eq_false_iff.mpr hsente) hne
  stuck p hsente hnil := by
    refine plies_of_not_mem h fun hp => edges_ne_nil.mpr ?_ hnil
    exact ((h.settled p hp).sente (Bool.eq_false_iff.mpr hsente)).1

end Game

/-! ## The solution -/

/-- What a solution should be: the distances are the values of the game, finite where Gote can leave
whatever Sente does, infinite where there is no allowed edge, and larger at a Sente node than at each
of her successors in the book; the finite and the infinite nodes are counted. -/
structure Exact (g : Graph) (s : GoteExitSolution) : Prop where
  value : ∀ n, GoteExitSolution.plies s.distance n = g.arena.value n
  forced : ∀ n, s.distance n ≠ kExitDistanceInfinite ↔
    ∃ σ, ∀ τ, g.arena.Legal τ → g.arena.plies (g.arena.profile σ τ) [] n ≠ ⊤
  stuck : ∀ n < g.nodeCount, (∀ c ∈ g.children n, c = kExitDisallowed) →
    s.distance n = kExitDistanceInfinite
  slowest : ∀ p c, g.isGote p = false → (p, c) ∈ internal g.edges →
    1 + GoteExitSolution.plies s.distance c ≤ GoteExitSolution.plies s.distance p
  finiteNodes : s.finiteNodes =
    ((List.range g.nodeCount).filter fun n => s.distance n ≠ kExitDistanceInfinite).length
  infiniteNodes : s.infiniteNodes =
    ((List.range g.nodeCount).filter fun n => s.distance n = kExitDistanceInfinite).length
  internalEdges : s.allowedInternalEdges = (internal g.edges).length

section Solution

variable {g : Graph} {s : Search} {d : Nat}

theorem plies_ne_top {distance : Nat → Nat} {n : Nat} :
    GoteExitSolution.plies distance n ≠ ⊤ ↔ distance n ≠ kExitDistanceInfinite := by
  rw [GoteExitSolution.plies]
  split
  · rename_i h
    exact iff_of_false (not_not.mpr rfl) (not_not.mpr h)
  · rename_i h
    exact iff_of_true (ENat.natCast_ne_top _) h

/-- The queue holds each finite node once. -/
theorem length_queue {v : List (Nat × Nat)} (h : Sound g v d s) : s.queue.length =
    ((List.range g.nodeCount).filter fun n => s.distance n ≠ kExitDistanceInfinite).length := by
  refine ((List.perm_ext_iff_of_nodup h.nodup (List.nodup_range.filter _)).mpr fun x => ?_).length_eq
  rw [List.mem_filter, List.mem_range, decide_eq_true_eq, ← h.finite x]
  exact (and_iff_right_of_imp (h.nodes x)).symm

theorem exact_of_sound (hg : g.WithinLimits) (h : Sound g (edgesInto g s.queue) d s) :
    Exact g ⟨s.distance, (internal g.edges).length, s.queue.length, g.nodeCount - s.queue.length⟩ where
  value n := (ExitGame.Arena.value_eq_of_bellman (bellman_of_sound hg h) n).symm
  forced n := by
    rw [← plies_ne_top]
    exact ExitGame.Arena.ne_top_iff_of_bellman (bellman_of_sound hg h) n
  stuck n hn hall := by
    by_contra hfinite
    have hsettled := h.settled n ((h.finite n).mpr hfinite)
    have hno : ¬ ∃ c, (n, c) ∈ g.edges ∧ c ≠ kExitDisallowed :=
      fun ⟨c, hc, hne⟩ => hne (hall c (mem_edges.mp hc).2)
    cases hgote : g.isGote n with
    | true =>
      obtain ⟨hexit, -⟩ | ⟨-, ⟨c, -, hc, -⟩, -⟩ := hsettled.gote hgote
      · exact hno ⟨kExitLeaf, hexit, kExitLeaf_ne⟩
      · exact hno ⟨c, (mem_internal.mp hc).1, (mem_internal.mp hc).2.ne⟩
    | false => exact hno (hsettled.sente hgote).1
  slowest p c hsente hpc := by
    have hedge := (some_mem_edges hg).mpr hpc
    rw [plies_sente hg h hsente (List.ne_nil_of_mem hedge)]
    exact add_le_add_right (le_iSup₂ (f := fun e (_ : e ∈ g.arena.edges p) =>
      ExitGame.cost (GoteExitSolution.plies s.distance) e) (some c) hedge) 1
  finiteNodes := length_queue h
  infiniteNodes := by
    have hsplit := (List.filter_append_perm (fun n => decide (s.distance n = kExitDistanceInfinite))
      (List.range g.nodeCount)).length_eq
    rw [List.length_append, List.length_range] at hsplit
    have hfinite := length_queue h
    simp only [ne_eq, decide_not] at hfinite ⊢
    omega
  internalEdges := rfl

/-- `SolveGoteExitGraph` ends without an exception, with an empty queue. -/
theorem solveGoteExitGraph_sound (hg : g.WithinLimits) : ∃ s d,
    g.solveGoteExitGraph = .ok
      ⟨s.distance, (internal g.edges).length, s.queue.length, g.nodeCount - s.queue.length⟩ ∧
    Sound g (edgesInto g s.queue) d s := by
  obtain ⟨d, hdegrees, hd⟩ := degrees_counted hg
  have hoffsets := reverseOffsets_nodeCount hg hd
  have hsize : d.internalEdges ≤ 2 ^ 64 - 1 := by
    rw [← hoffsets]
    have hle : reverseOffsets d.reverseCounts g.nodeCount ≤ g.nodeCount * uint32Max :=
      PrefixSums.before_le fun c hc => hd.reverseCounts c ▸ hg.reverseDegree c hc
    have hnodes := hg.nodes
    rw [kExitDisallowed, uint32Max] at hnodes
    rw [uint32Max] at hle
    omega
  obtain ⟨s, k, hdrain, hsound⟩ := drain_sound hg (parentsOf_eq hd) (g.nodeCount + 1) 0 (Nat.zero_le _)
    (start_sound hd) (fun x hx => ((start_sound hd).bound 0 x hx).1) (by omega)
  refine ⟨s, k, ?_, hsound⟩
  rw [solveGoteExitGraph, if_neg (not_le.mpr hg.nodes), hdegrees]
  show (if _ ∨ _ then _ else _) = _
  rw [if_neg (not_or.mpr ⟨not_not.mpr hoffsets, not_lt.mpr hsize⟩), hdrain, ← hd.internalEdges]
  rfl

/-- What the distances tell the players: how Gote can come nearer to an exit, and that Sente does so
with each of her moves. -/
structure Guides (g : Graph) (distance : Nat → Nat) : Prop where
  small : ∀ p, distance p ≠ kExitDistanceInfinite → distance p + 1 < kExitDistanceInfinite
  pos : ∀ p, distance p ≠ kExitDistanceInfinite → 1 ≤ distance p
  nodes : ∀ p, distance p ≠ kExitDistanceInfinite → p < g.nodeCount
  gote : ∀ p, g.isGote p = true → distance p ≠ kExitDistanceInfinite →
    (p, kExitLeaf) ∈ g.edges ∨ ∃ c, (p, c) ∈ internal g.edges ∧
      distance c ≠ kExitDistanceInfinite ∧ distance p = distance c + 1
  sente : ∀ p, g.isGote p = false → distance p ≠ kExitDistanceInfinite →
    (∃ c, (p, c) ∈ g.edges ∧ c ≠ kExitDisallowed) ∧
      ∀ c, (p, c) ∈ internal g.edges → distance c ≠ kExitDistanceInfinite ∧ distance c < distance p

theorem guides_of_sound (hg : g.WithinLimits) (h : Sound g (edgesInto g s.queue) d s) :
    Guides g s.distance where
  small p hp := h.distance_lt hg ((h.finite p).mpr hp)
  pos p hp := (h.distance_le ((h.finite p).mpr hp)).1
  nodes p hp := h.nodes p ((h.finite p).mpr hp)
  gote p hgote hp := by
    obtain ⟨hexit, -⟩ | ⟨-, ⟨c, hc, hpc, heq⟩, -⟩ := (h.settled p ((h.finite p).mpr hp)).gote hgote
    · exact Or.inl hexit
    · exact Or.inr ⟨c, hpc, (h.finite c).mp hc, heq⟩
  sente p hsente hp := by
    obtain ⟨hallowed, hall, -⟩ := (h.settled p ((h.finite p).mpr hp)).sente hsente
    exact ⟨hallowed, fun c hpc => ⟨(h.finite c).mp (hall c hpc).1, Nat.lt_of_succ_le (hall c hpc).2⟩⟩

/-- The distances of the solution guide the players. -/
theorem solveGoteExitGraph_guides (hg : g.WithinLimits) :
    ∃ s, g.solveGoteExitGraph = .ok s ∧ Guides g s.distance := by
  obtain ⟨s, d, hsolve, hsound⟩ := solveGoteExitGraph_sound hg
  exact ⟨_, hsolve, guides_of_sound hg hsound⟩

/-- `SolveGoteExitGraph` ends without an exception and computes the value of the game, for every
graph within the limits of its counters. -/
theorem solveGoteExitGraph_value (g : Graph) (hg : g.WithinLimits) :
    ∃ s, g.solveGoteExitGraph = .ok s ∧ Exact g s := by
  obtain ⟨s, d, hsolve, hsound⟩ := solveGoteExitGraph_sound hg
  exact ⟨_, hsolve, exact_of_sound hg hsound⟩

/-- Node 0 is Sente's and node 1 Gote's; both can leave or move to node 1. -/
def leaveOrStay : Graph := ⟨2, fun n => n == 1, fun _ => [kExitLeaf, 1]⟩

theorem solveGoteExitGraph_value_leaveOrStay :
    ∃ s, leaveOrStay.solveGoteExitGraph = .ok s ∧ Exact leaveOrStay s :=
  solveGoteExitGraph_value leaveOrStay
    ⟨by decide +kernel, by decide +kernel, by decide +kernel, by decide +kernel⟩

/-- Sente stays for one ply more. -/
example : leaveOrStay.solveGoteExitGraph.toOption.map
    (fun s => (s.distance 0, s.distance 1, s.finiteNodes)) = some (2, 1, 2) := by
  decide +kernel

end Solution

end Graph

end GoteExit
