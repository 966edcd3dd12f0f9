import ShogiEngine.Mate.Dfpn

/-!
# Trees of the df-pn search

What the proof and disproof numbers of a tree say, and which child is selected.

## Main definitions

- `DfpnNode.frontier`: the leaves that can still be expanded
- `Ok`: trees whose blocks of children are there and whose numbers have been summarized
- `Everywhere`, `WellFormed`, `Numbered`: what holds at every node of a tree

## Main results

- `Ok.numbered`: the numbers of an open node lie between 1 and the number of its frontier leaves
- `exists_selection`: an open child is selected, with thresholds above its numbers
-/

namespace Shogi

namespace MateDfpnSolver

/-! ## Sizes -/

mutual

/-- The leaves below a node that can still be expanded. -/
def DfpnNode.frontier : DfpnNode → Nat
  | .mk d cs =>
    if d.pn = 0 ∨ d.dn = 0 then 0 else if d.childNum = notExpanded then 1 else DfpnNode.frontiers cs

/-- Those of some trees. -/
def DfpnNode.frontiers : List DfpnNode → Nat
  | [] => 0
  | c :: cs => c.frontier + DfpnNode.frontiers cs

end

mutual

/-- The open nodes of a tree. -/
def DfpnNode.unsettled : DfpnNode → Nat
  | .mk d cs => if d.pn = 0 ∨ d.dn = 0 then 0 else 1 + DfpnNode.unsettleds cs

/-- Those of some trees. -/
def DfpnNode.unsettleds : List DfpnNode → Nat
  | [] => 0
  | c :: cs => c.unsettled + DfpnNode.unsettleds cs

end

/-- A node that is neither proved nor disproved. -/
def DfpnNode.Open (n : DfpnNode) : Prop := n.data.pn ≠ 0 ∧ n.data.dn ≠ 0

/-- A number that stands for infinity. -/
def Infinite (x : Nat) : Prop := 2 ^ 31 ≤ x ∧ x ≤ INF

/-- The numbers of a solved node. -/
def Solved (x y : Nat) : Prop := x = 0 ∧ Infinite y ∨ y = 0 ∧ Infinite x

/-- The numbers of an open node with `k` frontier leaves. -/
def Counts (x y k : Nat) : Prop := (1 ≤ x ∧ x ≤ k) ∧ 1 ≤ y ∧ y ≤ k

/-- The pointer to the children is null, or the block holds as many as `child_num` says. -/
def Block (d : NodeData) (cs : List DfpnNode) : Prop :=
  (d.childNum = 0 ∨ d.childNum = notExpanded) ∧ cs = [] ∨
    (1 ≤ d.childNum ∧ d.childNum ≤ 254) ∧ cs.length = d.childNum

/-- The trees of the search: leaves, solved nodes, and nodes whose numbers sum up their children. -/
inductive Ok : Bool → DfpnNode → Prop
  | fresh {orNode : Bool} {d : NodeData} (pn : d.pn = 1) (dn : d.dn = 1)
      (childNum : d.childNum = notExpanded) : Ok orNode (.mk d [])
  | closed {orNode : Bool} {d : NodeData} {cs : List DfpnNode} (block : Block d cs)
      (children : ∀ c ∈ cs, Ok (!orNode) c) (solved : Solved d.pn d.dn) : Ok orNode (.mk d cs)
  | inner {orNode : Bool} {d : NodeData} {cs : List DfpnNode} (pos : 1 ≤ d.childNum)
      (small : d.childNum ≤ 254) (length : cs.length = d.childNum) (children : ∀ c ∈ cs, Ok (!orNode) c)
      (numbers : (d.pn, d.dn) = numbersOf orNode cs) : Ok orNode (.mk d cs)

section Sizes

variable {c c' n : DfpnNode} {cs : List DfpnNode} {i : Nat}

theorem sizes_eq : DfpnNode.sizes cs = (cs.map fun c => 1 + c.size).sum := by
  induction cs with
  | nil => rfl
  | cons c cs ih => rw [DfpnNode.sizes, List.map_cons, List.sum_cons, ih]

theorem frontiers_eq : DfpnNode.frontiers cs = (cs.map DfpnNode.frontier).sum := by
  induction cs with
  | nil => rfl
  | cons c cs ih => rw [DfpnNode.frontiers, List.map_cons, List.sum_cons, ih]

theorem unsettleds_eq : DfpnNode.unsettleds cs = (cs.map DfpnNode.unsettled).sum := by
  induction cs with
  | nil => rfl
  | cons c cs ih => rw [DfpnNode.unsettleds, List.map_cons, List.sum_cons, ih]

theorem size_eq : n.size = DfpnNode.sizes n.children := by
  cases n
  rw [DfpnNode.size, DfpnNode.children]

theorem size_lt (hc : c ∈ n.children) : 1 + c.size ≤ n.size := by
  rw [size_eq (n := n), sizes_eq]
  exact List.single_le_sum (fun _ _ => Nat.zero_le _) _
    (List.mem_map_of_mem (f := fun c => 1 + DfpnNode.size c) hc)

theorem unsettled_of_open (h : n.Open) : n.unsettled = 1 + DfpnNode.unsettleds n.children := by
  obtain ⟨d, cs⟩ := n
  rw [DfpnNode.unsettled, if_neg (show ¬ (d.pn = 0 ∨ d.dn = 0) from not_or.mpr h)]
  rfl

theorem unsettled_of_not_open (h : ¬ n.Open) : n.unsettled = 0 := by
  obtain ⟨d, cs⟩ := n
  rw [DfpnNode.unsettled, if_pos]
  by_contra hno
  exact h (not_or.mp hno)

theorem unsettled_le : n.unsettled ≤ 1 + DfpnNode.unsettleds n.children := by
  by_cases h : n.Open
  · exact (unsettled_of_open h).le
  · rw [unsettled_of_not_open h]
    exact Nat.zero_le _

/-- A child is replaced. -/
theorem sum_map_set (c' : DfpnNode) (f : DfpnNode → Nat) (h : cs[i]? = some c) :
    ((cs.set i c').map f).sum + f c = (cs.map f).sum + f c' := by
  induction cs generalizing i with
  | nil => cases h
  | cons d cs ih =>
    cases i with
    | zero =>
      cases h
      rw [List.set_cons_zero, List.map_cons, List.map_cons, List.sum_cons, List.sum_cons]
      omega
    | succ i =>
      have := ih h
      rw [List.set_cons_succ, List.map_cons, List.map_cons, List.sum_cons, List.sum_cons]
      omega

theorem sizes_set (h : cs[i]? = some c) :
    DfpnNode.sizes (cs.set i c') + c.size = DfpnNode.sizes cs + c'.size := by
  have := sum_map_set c' (fun c => 1 + c.size) h
  rw [sizes_eq, sizes_eq]
  omega

theorem unsettleds_set (h : cs[i]? = some c) :
    DfpnNode.unsettleds (cs.set i c') + c.unsettled = DfpnNode.unsettleds cs + c'.unsettled := by
  rw [unsettleds_eq, unsettleds_eq]
  exact sum_map_set c' _ h

mutual

theorem frontier_le (n : DfpnNode) : n.frontier ≤ 1 + n.size := by
  cases n with
  | mk d cs =>
    have := frontiers_le cs
    rw [DfpnNode.frontier, DfpnNode.size]
    split
    · exact Nat.zero_le _
    · split <;> omega

theorem frontiers_le (cs : List DfpnNode) : DfpnNode.frontiers cs ≤ DfpnNode.sizes cs := by
  cases cs with
  | nil => exact le_rfl
  | cons c cs =>
    have := frontier_le c
    have := frontiers_le cs
    rw [DfpnNode.frontiers, DfpnNode.sizes]
    omega

end

end Sizes

/-! ## Numbers -/

section Numbers

variable {orNode : Bool} {c n : DfpnNode} {cs : List DfpnNode} {d : NodeData}

theorem satAdd_eq (a b : Nat) : satAdd a b = min INF (a + b) := by
  unfold satAdd
  split <;> omega

theorem foldl_satAdd (f : DfpnNode → Nat) (cs : List DfpnNode) {a : Nat} (ha : a ≤ INF) :
    cs.foldl (fun a c => satAdd a (f c)) a = min INF (a + (cs.map f).sum) := by
  induction cs generalizing a with
  | nil => rw [List.foldl_nil, List.map_nil, List.sum_nil]; omega
  | cons c cs ih =>
    rw [List.foldl_cons, ih (by rw [satAdd_eq]; omega), satAdd_eq, List.map_cons, List.sum_cons]
    omega

theorem foldl_min_le_init (f : DfpnNode → Nat) (cs : List DfpnNode) (a : Nat) :
    cs.foldl (fun a c => min a (f c)) a ≤ a := by
  induction cs generalizing a with
  | nil => exact le_rfl
  | cons c cs ih => exact (ih _).trans (min_le_left _ _)

theorem foldl_min_le (f : DfpnNode → Nat) (hc : c ∈ cs) (a : Nat) :
    cs.foldl (fun a c => min a (f c)) a ≤ f c := by
  induction cs generalizing a with
  | nil => cases hc
  | cons d cs ih =>
    rw [List.foldl_cons]
    rcases List.mem_cons.mp hc with rfl | hc
    · exact (foldl_min_le_init f cs _).trans (min_le_right _ _)
    · exact ih hc _

theorem le_foldl_min (f : DfpnNode → Nat) {a x : Nat} (ha : x ≤ a) (hcs : ∀ c ∈ cs, x ≤ f c) :
    x ≤ cs.foldl (fun a c => min a (f c)) a := by
  induction cs generalizing a with
  | nil => exact ha
  | cons c cs ih =>
    exact ih (le_min ha (hcs c List.mem_cons_self)) fun d hd => hcs d (List.mem_cons_of_mem c hd)

/-- The least number of the children. -/
def least (orNode : Bool) (cs : List DfpnNode) : Nat :=
  cs.foldl (fun a c => min a (c.rel orNode)) INF

/-- The sum of the other numbers of the children. -/
def total (orNode : Bool) (cs : List DfpnNode) : Nat := (cs.map (DfpnNode.opp orNode)).sum

theorem numbersOf_eq (orNode : Bool) (cs : List DfpnNode) :
    numbersOf orNode cs =
      if orNode then (least orNode cs, min INF (total orNode cs))
      else (min INF (total orNode cs), least orNode cs) := by
  rw [numbersOf, foldl_satAdd _ cs (Nat.zero_le _), Nat.zero_add]
  rfl

/-- What a node's numbers say, whichever of them is minimized. -/
def Fits (x y k : Nat) : Prop := Solved x y ∨ Counts x y k

theorem Solved.swap {x y : Nat} (h : Solved x y) : Solved y x := h.symm.imp id id

theorem Counts.swap {x y k : Nat} (h : Counts x y k) : Counts y x k := ⟨h.2, h.1⟩

theorem Fits.swap {x y k : Nat} (h : Fits x y k) : Fits y x k := h.imp Solved.swap Counts.swap

theorem Fits.rel_opp (h : Fits n.data.pn n.data.dn n.frontier) :
    Fits (n.rel orNode) (n.opp orNode) n.frontier := by
  cases orNode
  · exact h.swap
  · exact h

theorem Infinite.pos {x : Nat} (h : Infinite x) : 0 < x := lt_of_lt_of_le (by decide) h.1

theorem not_solved {x y : Nat} (hx : x ≠ 0) (hy : y ≠ 0) : ¬ Solved x y := by
  rintro (⟨h, -⟩ | ⟨h, -⟩)
  · exact hx h
  · exact hy h

/-- The numbers of a node follow from those of its children. -/
theorem fits_least (orNode : Bool)
    (hcs : ∀ c ∈ cs, Fits (c.rel orNode) (c.opp orNode) c.frontier)
    (small : DfpnNode.frontiers cs < 2 ^ 31) :
    Fits (least orNode cs) (min INF (total orNode cs)) (DfpnNode.frontiers cs) := by
  by_cases h0 : ∃ c ∈ cs, c.rel orNode = 0
  · -- one child decides the node, and its other number makes the sum infinite
    obtain ⟨c, hc, hrel⟩ := h0
    have hleast : least orNode cs = 0 := Nat.le_zero.mp (hrel ▸ foldl_min_le _ hc INF)
    have hopp : Infinite (c.opp orNode) := by
      rcases hcs c hc with (⟨-, h⟩ | ⟨-, h⟩) | h
      · exact h
      · exact absurd (hrel ▸ h) (fun h => absurd h.pos (lt_irrefl 0))
      · exact absurd h.1.1 (by omega)
    have hsum : c.opp orNode ≤ total orNode cs :=
      List.single_le_sum (fun _ _ => Nat.zero_le _) _ (List.mem_map_of_mem hc)
    refine Or.inl (Or.inl ⟨hleast, le_min (by decide) (hopp.1.trans hsum), min_le_left _ _⟩)
  have h0 : ∀ c ∈ cs, 1 ≤ c.rel orNode := fun c hc =>
    Nat.one_le_iff_ne_zero.mpr fun h => h0 ⟨c, hc, h⟩
  have hpos : 1 ≤ least orNode cs := le_foldl_min _ (by decide) h0
  have hsum : total orNode cs ≤ DfpnNode.frontiers cs := by
    rw [frontiers_eq]
    refine List.sum_le_sum fun c hc => ?_
    rcases hcs c hc with (⟨h, -⟩ | ⟨h, -⟩) | h
    · exact absurd (h0 c hc) (by omega)
    · exact h ▸ Nat.zero_le _
    · exact h.2.2
  have hinf : min INF (total orNode cs) = total orNode cs :=
    min_eq_right (by simp only [INF]; omega)
  rw [hinf]
  by_cases ho : ∃ c ∈ cs, c.opp orNode ≠ 0
  · -- an open child bounds the least number
    obtain ⟨c, hc, hopp⟩ := ho
    have hcount : Counts (c.rel orNode) (c.opp orNode) c.frontier :=
      (hcs c hc).resolve_left (not_solved (Nat.one_le_iff_ne_zero.mp (h0 c hc)) hopp)
    have hle : c.frontier ≤ DfpnNode.frontiers cs := by
      rw [frontiers_eq]
      exact List.single_le_sum (fun _ _ => Nat.zero_le _) _ (List.mem_map_of_mem hc)
    have hone : c.opp orNode ≤ total orNode cs :=
      List.single_le_sum (fun _ _ => Nat.zero_le _) _ (List.mem_map_of_mem hc)
    exact Or.inr ⟨⟨hpos, (foldl_min_le _ hc INF).trans (hcount.1.2.trans hle)⟩,
      hcount.2.1.trans hone, hsum⟩
  · -- every child is solved against the player to move
    have hall : ∀ c ∈ cs, c.opp orNode = 0 := fun c hc => not_not.mp fun h => ho ⟨c, hc, h⟩
    have htotal : total orNode cs = 0 :=
      List.sum_eq_zero fun x hx => by
        obtain ⟨c, hc, rfl⟩ := List.mem_map.mp hx
        exact hall c hc
    have hrel : ∀ c ∈ cs, Infinite (c.rel orNode) := by
      intro c hc
      rcases hcs c hc with (⟨h, -⟩ | ⟨-, h⟩) | h
      · exact absurd (h0 c hc) (by omega)
      · exact h
      · exact absurd h.2.1 (by rw [hall c hc]; omega)
    refine Or.inl (Or.inr ⟨htotal, le_foldl_min _ (by decide) fun c hc => (hrel c hc).1, ?_⟩)
    exact foldl_min_le_init _ cs INF

/-- The numbers that `SummarizeNode` gives a node fit when those of its children do. -/
theorem fits_numbersOf (hcs : ∀ c ∈ cs, Fits c.data.pn c.data.dn c.frontier)
    (small : DfpnNode.frontiers cs < 2 ^ 31) :
    Fits (numbersOf orNode cs).1 (numbersOf orNode cs).2 (DfpnNode.frontiers cs) := by
  have h := fits_least orNode (fun c hc => (hcs c hc).rel_opp) small
  rw [numbersOf_eq]
  cases orNode
  · exact h.swap
  · exact h

end Numbers

/-! ## What holds at every node -/

/-- A property of a node and of all the nodes below it. -/
inductive Everywhere (P : DfpnNode → Prop) : DfpnNode → Prop
  | mk {d : NodeData} {cs : List DfpnNode} (here : P (.mk d cs))
      (children : ∀ c ∈ cs, Everywhere P c) : Everywhere P (.mk d cs)

/-- The children are there, and exactly one of the numbers is zero if the node is solved. -/
def WellFormed (n : DfpnNode) : Prop :=
  Block n.data n.children ∧ (Solved n.data.pn n.data.dn ∨ n.Open)

/-- Moreover the numbers of an open node lie between 1 and the number of its frontier leaves. -/
def Numbered (n : DfpnNode) : Prop :=
  Block n.data n.children ∧ Fits n.data.pn n.data.dn n.frontier

section Everywhere

variable {P Q : DfpnNode → Prop} {orNode : Bool} {c n : DfpnNode} {cs : List DfpnNode} {d : NodeData}
  {i : Nat}

theorem Everywhere.here (h : Everywhere P n) : P n := by
  obtain ⟨h, -⟩ := h
  exact h

theorem Everywhere.child (h : Everywhere P n) (hc : c ∈ n.children) : Everywhere P c := by
  obtain ⟨-, h⟩ := h
  exact h c hc

theorem Everywhere.imp (hPQ : ∀ n, P n → Q n) (h : Everywhere P n) : Everywhere Q n := by
  induction h with
  | mk h _ ih => exact .mk (hPQ _ h) ih

theorem Fits.wellFormed {k : Nat} (h : Fits n.data.pn n.data.dn k) :
    Solved n.data.pn n.data.dn ∨ n.Open :=
  h.imp id fun h => ⟨Nat.one_le_iff_ne_zero.mp h.1.1, Nat.one_le_iff_ne_zero.mp h.2.1⟩

theorem Numbered.wellFormed (n : DfpnNode) (h : Numbered n) : WellFormed n := ⟨h.1, h.2.wellFormed⟩

theorem Solved.not_open (h : Solved n.data.pn n.data.dn) : ¬ n.Open := fun ho => not_solved ho.1 ho.2 h

theorem Fits.counts {k : Nat} (h : Fits n.data.pn n.data.dn k) (ho : n.Open) :
    Counts n.data.pn n.data.dn k :=
  h.resolve_left fun hs => hs.not_open ho

theorem frontier_of_inner (ho : (DfpnNode.mk d cs).Open) (h : d.childNum ≤ 254) :
    (DfpnNode.mk d cs).frontier = DfpnNode.frontiers cs := by
  have hd : d.childNum ≠ notExpanded := fun he => absurd (he ▸ h) (by decide)
  rw [DfpnNode.frontier, if_neg (show ¬ (d.pn = 0 ∨ d.dn = 0) from not_or.mpr ho), if_neg hd]

/-- Every tree of the search has its children and its numbers. -/
theorem Ok.numbered (h : Ok orNode n) (small : n.size < 2 ^ 31) : Everywhere Numbered n := by
  induction h with
  | @fresh _ d pn dn childNum =>
    have hf : (DfpnNode.mk d []).frontier = 1 := by
      rw [DfpnNode.frontier, if_neg (by rw [pn, dn]; decide), if_pos childNum]
    refine .mk ⟨Or.inl ⟨Or.inr childNum, rfl⟩, Or.inr ?_⟩ fun c hc => absurd hc List.not_mem_nil
    rw [hf, Counts, DfpnNode.data, pn, dn]
    decide
  | closed block _ solved ih =>
    refine .mk ⟨block, Or.inl solved⟩ fun c hc => ih c hc ?_
    exact (Nat.le_add_left ..).trans_lt ((size_lt hc).trans_lt small)
  | @inner orNode d cs pos childNum length _ numbers ih =>
    have hcs : ∀ c ∈ cs, Everywhere Numbered c := fun c hc =>
      ih c hc ((Nat.le_add_left ..).trans_lt ((size_lt hc).trans_lt small))
    refine .mk ⟨Or.inr ⟨⟨pos, childNum⟩, length⟩, ?_⟩ hcs
    have hfits : Fits d.pn d.dn (DfpnNode.frontiers cs) := by
      rw [show d.pn = (numbersOf orNode cs).1 from congrArg Prod.fst numbers,
        show d.dn = (numbersOf orNode cs).2 from congrArg Prod.snd numbers]
      exact fits_numbersOf (fun c hc => (hcs c hc).here.2) ((frontiers_le cs).trans_lt small)
    by_cases ho : (DfpnNode.mk d cs).Open
    · rw [frontier_of_inner ho childNum]
      exact hfits
    · exact Or.inl (hfits.resolve_right fun h =>
        ho ⟨Nat.one_le_iff_ne_zero.mp h.1.1, Nat.one_le_iff_ne_zero.mp h.2.1⟩)

/-- A leaf that can be expanded. -/
theorem Ok.of_notExpanded (h : Ok orNode n) (ho : n.Open) (hn : n.data.childNum = notExpanded) :
    n.children = [] := by
  obtain - | ⟨-, -, solved⟩ | ⟨-, small, -, -, -⟩ := h
  · rfl
  · exact absurd solved (not_solved ho.1 ho.2)
  · exact absurd (hn ▸ small) (by decide)

/-- An open node that has been expanded. -/
theorem Ok.of_expanded (h : Ok orNode n) (ho : n.Open) (hn : n.data.childNum ≠ notExpanded) :
    1 ≤ n.data.childNum ∧ n.children.length = n.data.childNum ∧ (∀ c ∈ n.children, Ok (!orNode) c) ∧
      (n.data.pn, n.data.dn) = numbersOf orNode n.children := by
  obtain ⟨-, -, childNum⟩ | ⟨-, -, solved⟩ | ⟨pos, small, length, children, numbers⟩ := h
  · exact absurd childNum hn
  · exact absurd solved (not_solved ho.1 ho.2)
  · exact ⟨pos, length, children, numbers⟩

end Everywhere

/-! ## Selection -/

section Selection

variable {orNode : Bool} {c n : DfpnNode} {cs : List DfpnNode} {i bestVal second secondPn secondDn : Nat}
  {best : Option Nat}

/-- The loop of `SelectBestChild` finds the least number, and a second one that is not smaller. -/
theorem selectScan_spec (orNode : Bool) (cs : List DfpnNode) (i : Nat) (best : Option Nat)
    (h : bestVal ≤ second) (hs : second ≤ INF) :
    (selectScan orNode cs i best bestVal second).2.1 =
        cs.foldl (fun a c => min a (c.rel orNode)) bestVal ∧
      (selectScan orNode cs i best bestVal second).2.1 ≤
        (selectScan orNode cs i best bestVal second).2.2 ∧
      ((selectScan orNode cs i best bestVal second).1 = best ∧
          cs.foldl (fun a c => min a (c.rel orNode)) bestVal = bestVal ∨
        ∃ k c, (selectScan orNode cs i best bestVal second).1 = some (i + k) ∧ cs[k]? = some c ∧
          c.rel orNode = cs.foldl (fun a c => min a (c.rel orNode)) bestVal) := by
  induction cs generalizing i best bestVal second with
  | nil => exact ⟨rfl, h, Or.inl ⟨rfl, rfl⟩⟩
  | cons c cs ih =>
    rw [selectScan, List.foldl_cons]
    by_cases hlt : c.rel orNode < bestVal
    · -- the child is the best one so far
      rw [if_pos hlt, min_eq_right hlt.le]
      obtain ⟨hval, hle, hbest⟩ := ih (i + 1) (some i) hlt.le (h.trans hs)
      refine ⟨hval, hle, Or.inr ?_⟩
      rcases hbest with ⟨hb, hv⟩ | ⟨k, d, hb, hd, hv⟩
      · exact ⟨0, c, hb, rfl, hv.symm⟩
      · exact ⟨k + 1, d, by rw [hb, Nat.add_right_comm, Nat.add_assoc], hd, hv⟩
    · -- the best child stays
      rw [if_neg hlt, min_eq_left (not_lt.mp hlt)]
      have hstep : ∀ second' ≤ INF, bestVal ≤ second' →
          (selectScan orNode cs (i + 1) best bestVal second').2.1 =
              cs.foldl (fun a c => min a (c.rel orNode)) bestVal ∧
            (selectScan orNode cs (i + 1) best bestVal second').2.1 ≤
              (selectScan orNode cs (i + 1) best bestVal second').2.2 ∧
            ((selectScan orNode cs (i + 1) best bestVal second').1 = best ∧
                cs.foldl (fun a c => min a (c.rel orNode)) bestVal = bestVal ∨
              ∃ k d, (selectScan orNode cs (i + 1) best bestVal second').1 = some (i + k) ∧
                (c :: cs)[k]? = some d ∧
                d.rel orNode = cs.foldl (fun a c => min a (c.rel orNode)) bestVal) := by
        intro second' hs' h'
        obtain ⟨hval, hle, hbest⟩ := ih (i + 1) best h' hs'
        refine ⟨hval, hle, hbest.imp id fun ⟨k, d, hb, hd, hv⟩ => ?_⟩
        exact ⟨k + 1, d, by rw [hb, Nat.add_right_comm, Nat.add_assoc], hd, hv⟩
      split
      · next hsecond => exact hstep _ (hsecond.le.trans hs) (not_lt.mp hlt)
      · exact hstep _ hs h

theorem rel_opp_of_numbers (h : (n.data.pn, n.data.dn) = numbersOf orNode n.children) :
    n.rel orNode = least orNode n.children ∧ n.opp orNode = min INF (total orNode n.children) := by
  rw [numbersOf_eq] at h
  cases orNode
  · exact ⟨congrArg Prod.snd h, congrArg Prod.fst h⟩
  · exact ⟨congrArg Prod.fst h, congrArg Prod.snd h⟩

/-- The child with the least number of an open node is open, and its numbers do not exceed the node's. -/
theorem open_of_least (hn : Counts n.data.pn n.data.dn n.frontier) (small : n.size ≤ 2000000)
    (numbers : (n.data.pn, n.data.dn) = numbersOf orNode n.children) (hc : c ∈ n.children)
    (hfits : Fits c.data.pn c.data.dn c.frontier) (hleast : c.rel orNode = least orNode n.children) :
    c.Open ∧ c.data.pn ≤ n.data.pn ∧ c.data.dn ≤ n.data.dn := by
  obtain ⟨hrel, hopp⟩ := rel_opp_of_numbers numbers
  have hfrontier := frontier_le n
  have hcounts : Counts (n.rel orNode) (n.opp orNode) n.frontier := by
    cases orNode
    · exact hn.swap
    · exact hn
  have hcrel : c.rel orNode = n.rel orNode := hleast.trans hrel.symm
  have hone : c.opp orNode ≤ total orNode n.children :=
    List.single_le_sum (fun _ _ => Nat.zero_le _) _ (List.mem_map_of_mem hc)
  have hle : c.opp orNode ≤ n.opp orNode := by
    rcases le_total INF (total orNode n.children) with hinf | hinf
    · rw [min_eq_left hinf] at hopp
      have : INF = 4294967280 := rfl
      exact absurd hcounts.2.2 (by omega)
    · rw [hopp, min_eq_right hinf]
      exact hone
  have hcc : Counts (c.rel orNode) (c.opp orNode) c.frontier := by
    refine hfits.rel_opp.resolve_left ?_
    rintro (⟨h, -⟩ | ⟨-, h⟩)
    · exact absurd hcounts.1.1 (by omega)
    · exact absurd h.1 (by have := hcounts.1.2; omega)
  cases orNode
  · exact ⟨⟨Nat.one_le_iff_ne_zero.mp hcc.2.1, Nat.one_le_iff_ne_zero.mp hcc.1.1⟩, hle, hcrel.le⟩
  · exact ⟨⟨Nat.one_le_iff_ne_zero.mp hcc.1.1, Nat.one_le_iff_ne_zero.mp hcc.2.1⟩, hcrel.le, hle⟩

theorem lt_threshold {x second threshold : Nat} (h : x < threshold) (hs : x ≤ second) (hx : x < INF) :
    x < min threshold (satAdd second 1) := by
  rw [satAdd_eq]
  omega

/-- An open child is selected, and both of its numbers are below the thresholds handed down. -/
theorem exists_selection (h : Ok orNode n) (small : n.size ≤ 2000000) (ho : n.Open)
    (hn : n.data.childNum ≠ notExpanded) (hpn : n.data.pn < secondPn) (hdn : n.data.dn < secondDn) :
    ∃ sel c, selectBestChild orNode n secondPn secondDn = .ok (some sel) ∧
      n.children[sel.index]? = some c ∧ c.Open ∧ c.data.pn < sel.secondPn ∧
      c.data.dn < sel.secondDn := by
  have hnum := h.numbered (by omega)
  obtain ⟨pos, length, -, numbers⟩ := h.of_expanded ho hn
  have hcounts : Counts n.data.pn n.data.dn n.frontier := hnum.here.2.counts ho
  have hfrontier := frontier_le n
  obtain ⟨hrel, -⟩ := rel_opp_of_numbers numbers
  have hinf : INF = 4294967280 := rfl
  obtain ⟨hval, hle, hbest⟩ := selectScan_spec orNode n.children 0 none
    (le_refl INF) le_rfl
  rcases hbest with ⟨-, hv⟩ | ⟨k, c, hb, hk, hv⟩
  · -- the node's own number is not infinite
    have hv : least orNode n.children = INF := hv
    have hlt : n.rel orNode < INF := by
      cases orNode
      · exact lt_of_le_of_lt hcounts.2.2 (by omega)
      · exact lt_of_le_of_lt hcounts.1.2 (by omega)
    exact absurd hlt (by omega)
  have hc : c ∈ n.children := List.mem_of_getElem? hk
  obtain ⟨hco, hcpn, hcdn⟩ := open_of_least hcounts small numbers hc (hnum.child hc).here.2 hv
  have hsel : selectBestChild orNode n secondPn secondDn =
      .ok (some ⟨k, if orNode then min secondPn (satAdd
          (selectScan orNode n.children 0 none INF INF).2.2 1) else secondPn,
        if orNode then secondDn else min secondDn (satAdd
          (selectScan orNode n.children 0 none INF INF).2.2 1)⟩) := by
    rw [selectBestChild, if_neg (Nat.one_le_iff_ne_zero.mp pos), if_neg (by omega),
      List.take_of_length_le length.le]
    simp only [hb, Option.map_some, Nat.zero_add]
  have hsecond : c.rel orNode ≤ (selectScan orNode n.children 0 none INF INF).2.2 :=
    (hv.trans hval.symm).trans_le hle
  refine ⟨_, c, hsel, hk, hco, ?_, ?_⟩
  · cases orNode
    · exact hcpn.trans_lt hpn
    · exact lt_threshold (hcpn.trans_lt hpn) hsecond (by have := hcounts.1.2; omega)
  · cases orNode
    · exact lt_threshold (hcdn.trans_lt hdn) hsecond (by have := hcounts.2.2; omega)
    · exact hcdn.trans_lt hdn

end Selection

end MateDfpnSolver

end Shogi
