import Mathlib

/-!
# Branch numbers

The arithmetic of `mate/bns.h`: how a node of the AND/OR search sums up what it knows of its
children, for branch numbers and for proof and disproof numbers.

## Main definitions

- `ChildView`, `summarize`, `childThresholds`: the source's types and functions
- `ChildView.Valid`: a verdict, or two counts that are not mistaken for one
- `Unsaturated`: children whose opposite numbers add up to a count

## Main results

- `summarize_outcome`: the three outcomes of a summary of valid views
- `faithful_summarize_iff`: it takes no count for a verdict unless it is saturated
-/

namespace Shogi

namespace Bns

/-- `kInf`. -/
def kInf : Nat := 2 ^ 30

/-- `while (n * 2 <= want) n *= 2;`, in at most `fuel` passes. -/
def doubled (want : Nat) : Nat → Nat → Nat
  | 0, n => n
  | fuel + 1, n => if n * 2 ≤ want then doubled want fuel (n * 2) else n

/-- `SatAdd`; the sum is formed in 64 bits. -/
def satAdd (a b : Nat) : Nat := if kInf ≤ a + b then kInf else a + b

/-- `ChildView`: a child's numbers as seen from its parent. -/
structure ChildView where
  abn : Nat
  obn : Nat
  deriving DecidableEq, Repr

/-- A child of which nothing is known. -/
def ChildView.unknown : ChildView := ⟨1, 1⟩

/-- `MateView`. -/
def mateView : ChildView := ⟨0, kInf⟩

/-- `NoMateView`. -/
def noMateView : ChildView := ⟨kInf, 0⟩

/-- The number that the node minimizes: `abn` at OR nodes and `obn` at AND nodes. -/
def ChildView.rel (orNode : Bool) (c : ChildView) : Nat := if orNode then c.abn else c.obn

/-- The other number. -/
def ChildView.opp (orNode : Bool) (c : ChildView) : Nat := if orNode then c.obn else c.abn

/-- The view with these two numbers. -/
def ChildView.ofRel (orNode : Bool) (rel opp : Nat) : ChildView :=
  if orNode then ⟨rel, opp⟩ else ⟨opp, rel⟩

/-- `Summary`; `best` is `none` for -1. -/
structure Summary where
  abn : Nat
  obn : Nat
  best : Option Nat
  second : Nat
  k : Nat
  proved : Bool
  disproved : Bool
  deriving DecidableEq, Repr

/-- `terminal()`. -/
def Summary.terminal (s : Summary) : Bool := s.proved || s.disproved

/-- The numbers of the node. -/
def Summary.view (s : Summary) : ChildView := ⟨s.abn, s.obn⟩

/-- The variables of the loop in `Summarize`. -/
structure Tally where
  bestRel : Nat
  bestOpp : Nat
  second : Nat
  k : Nat
  oppSum : Nat
  best : Option Nat

/-- Their values before the loop. -/
def Tally.start : Tally := ⟨kInf, kInf, kInf, 0, 0, none⟩

/-- The body of the loop for child `i`, which is active. -/
def Tally.count (t : Tally) (pnDn : Bool) (i rel opp : Nat) : Tally :=
  if rel < t.bestRel || pnDn && rel = t.bestRel && opp < t.bestOpp then
    { t with k := t.k + 1, second := t.bestRel, bestRel := rel, bestOpp := opp, best := some i }
  else if rel < t.second then { t with k := t.k + 1, second := rel }
  else { t with k := t.k + 1 }

/-- How the loop ends: at a child that decides the node, or with the tally of all children. -/
inductive Scan
  | decided (i : Nat)
  | tallied (t : Tally)

/-- The loop of `Summarize`, from child `i` on. -/
def scan (orNode pnDn : Bool) : List ChildView → Nat → Tally → Scan
  | [], _, t => .tallied t
  | c :: rest, i, t =>
    if c.rel orNode = 0 then .decided i
    else
      let t := if pnDn then { t with oppSum := t.oppSum + c.opp orNode } else t
      if kInf ≤ c.rel orNode then scan orNode pnDn rest (i + 1) t
      else scan orNode pnDn rest (i + 1) (t.count pnDn i (c.rel orNode) (c.opp orNode))

/-- `Summarize`, with its template parameters `kOrNode` and `kPnDn` as arguments. -/
def summarize (orNode pnDn : Bool) (c : List ChildView) : Summary :=
  match scan orNode pnDn c 0 .start with
  | .decided i =>
    { abn := if orNode then 0 else kInf
      obn := if orNode then kInf else 0
      best := some i
      second := kInf
      k := 0
      proved := orNode
      disproved := !orNode }
  | .tallied t =>
    if (if pnDn then t.oppSum = 0 else t.k = 0) then
      { abn := if orNode then kInf else 0
        obn := if orNode then 0 else kInf
        best := none
        second := kInf
        k := 0
        proved := !orNode
        disproved := orNode }
    else
      let nodeOpp := if pnDn then (if kInf ≤ t.oppSum then kInf else t.oppSum)
        else satAdd t.bestOpp (t.k - 1)
      { abn := if orNode then t.bestRel else nodeOpp
        obn := if orNode then nodeOpp else t.bestRel
        best := t.best
        second := t.second
        k := t.k
        proved := false
        disproved := false }

/-- The difference of two numbers of type `uint32_t`. -/
def sub32 (a b : Nat) : Nat := (a + 2 ^ 32 - b % 2 ^ 32) % 2 ^ 32

/-- `ChildThresholds`: the thresholds `(child_abn_th, child_obn_th)` for the selected child. -/
def childThresholds (orNode : Bool) (s : Summary) (best : ChildView) (abnTh obnTh : Nat) :
    Nat × Nat :=
  let relTh := if orNode then abnTh else obnTh
  let oppTh := if orNode then obnTh else abnTh
  let nodeOpp := if orNode then s.obn else s.abn
  let bestOpp := if orNode then best.obn else best.abn
  let relOut := if relTh < satAdd s.second 1 then relTh else satAdd s.second 1
  let oppOut := if kInf ≤ oppTh then kInf else sub32 oppTh (sub32 nodeOpp bestOpp)
  (if orNode then relOut else oppOut, if orNode then oppOut else relOut)

/-- Two children of an attacker, both unresolved: the smaller `abn` is selected. -/
example : summarize true false [⟨5, 9⟩, ⟨2, 7⟩, ⟨4, 1⟩] = ⟨2, 9, some 1, 4, 3, false, false⟩ := by
  decide +kernel

/-! ## Valid views -/

/-- Two counts, neither of them infinite. -/
def ChildView.Unresolved (c : ChildView) : Prop := (1 ≤ c.abn ∧ c.abn < kInf) ∧ 1 ≤ c.obn ∧ c.obn < kInf

/-- A verdict or two counts. -/
def ChildView.Valid (c : ChildView) : Prop := c = mateView ∨ c = noMateView ∨ c.Unresolved

instance (c : ChildView) : Decidable c.Unresolved :=
  inferInstanceAs (Decidable ((1 ≤ c.abn ∧ c.abn < kInf) ∧ 1 ≤ c.obn ∧ c.obn < kInf))

instance (c : ChildView) : Decidable c.Valid :=
  inferInstanceAs (Decidable (c = mateView ∨ c = noMateView ∨ c.Unresolved))

/-- The verdict for the side that minimizes at the node. -/
def wonView (orNode : Bool) : ChildView := .ofRel orNode 0 kInf

/-- The verdict against that side. -/
def lostView (orNode : Bool) : ChildView := .ofRel orNode kInf 0

/-- The child takes part in the choice. -/
def ChildView.Active (orNode : Bool) (c : ChildView) : Prop := c.rel orNode < kInf

instance (orNode : Bool) (c : ChildView) : Decidable (c.Active orNode) :=
  inferInstanceAs (Decidable (c.rel orNode < kInf))

section Valid

variable {orNode pnDn : Bool} {c : ChildView} {rel opp : Nat}

@[simp] theorem rel_ofRel : (ChildView.ofRel orNode rel opp).rel orNode = rel := by
  cases orNode <;> rfl

@[simp] theorem opp_ofRel : (ChildView.ofRel orNode rel opp).opp orNode = opp := by
  cases orNode <;> rfl

/-- A view from the side of the node. -/
theorem valid_iff (orNode : Bool) : c.Valid ↔ c = wonView orNode ∨ c = lostView orNode ∨
    (1 ≤ c.rel orNode ∧ c.rel orNode < kInf) ∧ 1 ≤ c.opp orNode ∧ c.opp orNode < kInf := by
  cases orNode with
  | true => exact Iff.rfl
  | false =>
    have hswap : c.Unresolved ↔ (1 ≤ c.obn ∧ c.obn < kInf) ∧ 1 ≤ c.abn ∧ c.abn < kInf := and_comm
    rw [ChildView.Valid, hswap]
    exact or_left_comm

theorem unresolved_iff (orNode : Bool) : c.Unresolved ↔
    (1 ≤ c.rel orNode ∧ c.rel orNode < kInf) ∧ 1 ≤ c.opp orNode ∧ c.opp orNode < kInf := by
  cases orNode with
  | true => exact Iff.rfl
  | false => exact and_comm

theorem kInf_pos : 0 < kInf := by decide

/-- Where no child decides the node, the active children are the unresolved ones. -/
theorem ChildView.Valid.cases (h : c.Valid) (hne : c.rel orNode ≠ 0) :
    c = lostView orNode ∧ ¬ c.Active orNode ∧ c.opp orNode = 0 ∨
      c.Unresolved ∧ c.Active orNode ∧ 1 ≤ c.opp orNode := by
  rcases (valid_iff orNode).mp h with rfl | rfl | hu
  · exact absurd rel_ofRel hne
  · refine Or.inl ⟨rfl, ?_, opp_ofRel⟩
    rw [Active, lostView, rel_ofRel]
    exact lt_irrefl _
  · exact Or.inr ⟨(unresolved_iff orNode).mpr hu, hu.1.2, hu.2.1⟩

end Valid

/-! ## The loop over the children -/

/-- What `Summarize` minimizes: the relevant number, and in PN/DN mode the other number next. -/
def ChildView.key (orNode pnDn : Bool) (c : ChildView) : Nat ×ₗ Nat :=
  toLex (c.rel orNode, if pnDn then c.opp orNode else 0)

/-- The first of the active children with the least key. -/
def selected (orNode pnDn : Bool) (l : List ChildView) : Option ChildView :=
  (l.filter fun c => decide (c.Active orNode)).argmin (ChildView.key orNode pnDn)

/-- The number of active children. -/
def active (orNode : Bool) (l : List ChildView) : Nat :=
  (l.filter fun c => decide (c.Active orNode)).length

/-- The sum of the opposite numbers. -/
def oppSum (orNode : Bool) (l : List ChildView) : Nat := (l.map (ChildView.opp orNode)).sum

/-- The tally of the children `l`. -/
structure Tallied (orNode pnDn : Bool) (l : List ChildView) (t : Tally) : Prop where
  k : t.k = active orNode l
  sum : pnDn = true → t.oppSum = oppSum orNode l
  empty : t.best = none → selected orNode pnDn l = none ∧ t.bestRel = kInf
  best : ∀ i, t.best = some i → ∃ c, l[i]? = some c ∧ selected orNode pnDn l = some c ∧
    t.bestRel = c.rel orNode ∧ t.bestOpp = c.opp orNode

section Scan

variable {orNode pnDn : Bool} {c d : ChildView} {l : List ChildView} {t : Tally} {i : Nat}

theorem key_lt_iff : c.key orNode pnDn < d.key orNode pnDn ↔ c.rel orNode < d.rel orNode ∨
    pnDn = true ∧ c.rel orNode = d.rel orNode ∧ c.opp orNode < d.opp orNode := by
  rw [ChildView.key, ChildView.key, Prod.Lex.toLex_lt_toLex]
  cases pnDn <;> simp

theorem filter_active_concat : (l ++ [c]).filter (fun c => decide (c.Active orNode)) =
    l.filter (fun c => decide (c.Active orNode)) ++ if c.Active orNode then [c] else [] := by
  rw [List.filter_append, List.filter_singleton]
  by_cases h : c.Active orNode
  · rw [decide_eq_true h, if_pos h, cond_true]
  · rw [decide_eq_false h, if_neg h, cond_false]

theorem selected_concat_of_not_active (h : ¬ c.Active orNode) :
    selected orNode pnDn (l ++ [c]) = selected orNode pnDn l := by
  rw [selected, filter_active_concat, if_neg h, List.append_nil, selected]

theorem active_concat_of_not_active (h : ¬ c.Active orNode) :
    active orNode (l ++ [c]) = active orNode l := by
  rw [active, filter_active_concat, if_neg h, List.append_nil, active]

theorem selected_concat_of_none (h : c.Active orNode) (hl : selected orNode pnDn l = none) :
    selected orNode pnDn (l ++ [c]) = some c := by
  rw [selected] at hl
  rw [selected, filter_active_concat, if_pos h, List.argmin_concat, hl]

theorem selected_concat_of_some (h : c.Active orNode) (hl : selected orNode pnDn l = some d) :
    selected orNode pnDn (l ++ [c]) =
      if c.key orNode pnDn < d.key orNode pnDn then some c else some d := by
  rw [selected] at hl
  rw [selected, filter_active_concat, if_pos h, List.argmin_concat, hl]

theorem active_concat (h : c.Active orNode) : active orNode (l ++ [c]) = active orNode l + 1 := by
  rw [active, filter_active_concat, if_pos h, List.length_append, active]
  rfl

theorem oppSum_concat : oppSum orNode (l ++ [c]) = oppSum orNode l + c.opp orNode := by
  simp only [oppSum, List.map_append, List.map_cons, List.map_nil, List.sum_append, List.sum_cons,
    List.sum_nil, Nat.add_zero]

theorem selected_mem (h : selected orNode pnDn l = some c) : c ∈ l ∧ c.Active orNode := by
  have hmem := List.mem_filter.mp (List.argmin_mem h)
  exact ⟨hmem.1, of_decide_eq_true hmem.2⟩

theorem selected_eq_none : selected orNode pnDn l = none ↔ active orNode l = 0 := by
  rw [selected, List.argmin_eq_none, active, List.length_eq_zero_iff]

theorem active_eq_zero : active orNode l = 0 ↔ ∀ c ∈ l, ¬ c.Active orNode := by
  rw [active, List.length_eq_zero_iff, List.filter_eq_nil_iff]
  simp only [decide_eq_true_eq]

theorem tallied_nil : Tallied orNode pnDn [] .start where
  k := rfl
  sum _ := rfl
  empty _ := ⟨rfl, rfl⟩
  best _ h := by cases h

/-- A child that takes no part changes only the sum. -/
theorem Tallied.skip (h : Tallied orNode pnDn l t) (hc : ¬ c.Active orNode) :
    Tallied orNode pnDn (l ++ [c])
      (if pnDn then { t with oppSum := t.oppSum + c.opp orNode } else t) := by
  refine ⟨?_, fun hp => ?_, fun hnone => ?_, fun i hi => ?_⟩
  · rw [active_concat_of_not_active hc, ← h.k]
    split <;> rfl
  · rw [if_pos hp, oppSum_concat, ← h.sum hp]
  · have hbest : t.best = none := by
      rw [← hnone]
      split <;> rfl
    obtain ⟨h1, h2⟩ := h.empty hbest
    refine ⟨(selected_concat_of_not_active hc).trans h1, ?_⟩
    rw [← h2]
    split <;> rfl
  · have hbest : t.best = some i := by
      rw [← hi]
      split <;> rfl
    obtain ⟨d, hd, hsel, hrel, hopp⟩ := h.best i hbest
    refine ⟨d, (List.getElem?_append_left (List.getElem?_eq_some_iff.mp hd).1).trans hd,
      (selected_concat_of_not_active hc).trans hsel, ?_, ?_⟩
    · rw [← hrel]
      split <;> rfl
    · rw [← hopp]
      split <;> rfl

/-- An active child enters the choice. -/
theorem Tallied.count (h : Tallied orNode pnDn l t) (hc : c.Active orNode) :
    Tallied orNode pnDn (l ++ [c])
      ((if pnDn then { t with oppSum := t.oppSum + c.opp orNode } else t).count pnDn l.length
        (c.rel orNode) (c.opp orNode)) := by
  set u := if pnDn then { t with oppSum := t.oppSum + c.opp orNode } else t with hu
  have hfields : u.k = t.k ∧ u.bestRel = t.bestRel ∧ u.bestOpp = t.bestOpp ∧ u.best = t.best := by
    rw [hu]
    split <;> exact ⟨rfl, rfl, rfl, rfl⟩
  obtain ⟨hk, hrel, hopp, hbest⟩ := hfields
  have hcount : (u.count pnDn l.length (c.rel orNode) (c.opp orNode)).k = u.k + 1 := by
    rw [Tally.count]
    split
    · rfl
    · split <;> rfl
  have hsum : (u.count pnDn l.length (c.rel orNode) (c.opp orNode)).oppSum = u.oppSum := by
    rw [Tally.count]
    split
    · rfl
    · split <;> rfl
  have hnew : (l ++ [c])[l.length]? = some c := by
    rw [List.getElem?_append_right le_rfl, Nat.sub_self]
    rfl
  -- the child is the best so far iff it precedes the one selected before
  have hif : (decide (c.rel orNode < u.bestRel) ||
      pnDn && decide (c.rel orNode = u.bestRel) && decide (c.opp orNode < u.bestOpp)) = true ↔
      c.rel orNode < t.bestRel ∨ pnDn = true ∧ c.rel orNode = t.bestRel ∧
        c.opp orNode < t.bestOpp := by
    rw [hrel, hopp]
    simp only [Bool.or_eq_true, Bool.and_eq_true, decide_eq_true_eq, and_assoc]
  refine ⟨by rw [hcount, hk, h.k, active_concat hc], fun hp => ?_, fun hnone => ?_, fun i hi => ?_⟩
  · rw [hsum, hu, if_pos hp, oppSum_concat, ← h.sum hp]
  · exfalso
    rw [Tally.count] at hnone
    split at hnone
    · cases hnone
    · rename_i hno
      have hold : t.best = none := by
        rw [← hbest, ← hnone]
        split <;> rfl
      refine hno (hif.mpr (Or.inl ?_))
      rw [(h.empty hold).2]
      exact hc
  · rw [Tally.count] at hi ⊢
    split at hi
    · rename_i hyes
      cases hi
      rw [if_pos hyes]
      refine ⟨c, hnew, ?_, rfl, rfl⟩
      cases hold : t.best with
      | none => exact selected_concat_of_none hc (h.empty hold).1
      | some j =>
        obtain ⟨d, -, hsel, hdrel, hdopp⟩ := h.best j hold
        rw [selected_concat_of_some hc hsel, if_pos]
        rw [key_lt_iff, ← hdrel, ← hdopp]
        exact hif.mp hyes
    · rename_i hno
      rw [if_neg hno]
      have hold : t.best = some i := by
        rw [← hbest, ← hi]
        split <;> rfl
      obtain ⟨d, hd, hsel, hdrel, hdopp⟩ := h.best i hold
      refine ⟨d, (List.getElem?_append_left (List.getElem?_eq_some_iff.mp hd).1).trans hd, ?_, ?_, ?_⟩
      · rw [selected_concat_of_some hc hsel, if_neg]
        rw [key_lt_iff, ← hdrel, ← hdopp]
        exact mt hif.mpr hno
      · rw [← hdrel, ← hrel]
        split <;> rfl
      · rw [← hdopp, ← hopp]
        split <;> rfl

/-- What every child keeps when it enters the tally holds of the tally of all children, unless the
loop ends at a child that decides the node. -/
theorem scan_induction {I : List ChildView → Tally → Prop}
    (hskip : ∀ done c t, I done t → ¬ c.Active orNode →
      I (done ++ [c]) (if pnDn then { t with oppSum := t.oppSum + c.opp orNode } else t))
    (hcount : ∀ done c t, I done t → c.Active orNode →
      I (done ++ [c]) ((if pnDn then { t with oppSum := t.oppSum + c.opp orNode } else t).count pnDn
        done.length (c.rel orNode) (c.opp orNode)))
    (done : List ChildView) (ht : I done t) (hdone : ∀ c ∈ done, c.rel orNode ≠ 0) :
    (∃ i c, scan orNode pnDn l done.length t = .decided i ∧ (done ++ l)[i]? = some c ∧
        c.rel orNode = 0) ∨
      ∃ u, scan orNode pnDn l done.length t = .tallied u ∧ I (done ++ l) u ∧
        ∀ c ∈ done ++ l, c.rel orNode ≠ 0 := by
  induction l generalizing done t with
  | nil =>
    rw [List.append_nil]
    exact Or.inr ⟨t, rfl, ht, hdone⟩
  | cons c rest ih =>
    simp only [scan]
    by_cases hzero : c.rel orNode = 0
    · rw [if_pos hzero]
      refine Or.inl ⟨done.length, c, rfl, ?_, hzero⟩
      rw [List.getElem?_append_right le_rfl, Nat.sub_self]
      rfl
    · rw [if_neg hzero]
      have hdone' : ∀ d ∈ done ++ [c], d.rel orNode ≠ 0 := by
        intro d hd
        rcases List.mem_append.mp hd with hd | hd
        · exact hdone d hd
        · exact List.mem_singleton.mp hd ▸ hzero
      have hlength : (done ++ [c]).length = done.length + 1 := by
        rw [List.length_append]
        rfl
      have happend : done ++ c :: rest = (done ++ [c]) ++ rest := by
        rw [List.append_assoc]
        rfl
      rw [happend, ← hlength]
      by_cases hinf : kInf ≤ c.rel orNode
      · rw [if_pos hinf]
        exact ih (done ++ [c]) (hskip done c t ht (not_lt.mpr hinf)) hdone'
      · rw [if_neg hinf]
        exact ih (done ++ [c]) (hcount done c t ht (not_le.mp hinf)) hdone'

/-- The loop ends at a child that decides the node, or with the tally of all of them. -/
theorem scan_spec : (∃ i c, scan orNode pnDn l 0 .start = .decided i ∧ l[i]? = some c ∧
      c.rel orNode = 0) ∨
    ∃ u, scan orNode pnDn l 0 .start = .tallied u ∧ Tallied orNode pnDn l u ∧
      ∀ c ∈ l, c.rel orNode ≠ 0 :=
  scan_induction (fun _ _ _ h hc => h.skip hc) (fun _ _ _ h hc => h.count hc) [] tallied_nil
    fun _ hc => absurd hc List.not_mem_nil

end Scan

/-! ## The summary -/

/-- A child decides the node. -/
def Decided (orNode : Bool) (l : List ChildView) : Prop := ∃ c ∈ l, c.rel orNode = 0

/-- The other number of the node, before saturation. -/
def nodeOpp (orNode pnDn : Bool) (l : List ChildView) (c : ChildView) : Nat :=
  if pnDn then oppSum orNode l else c.opp orNode + (active orNode l - 1)

/-- Where no child decides the node, its other number is a count. -/
def Unsaturated (orNode pnDn : Bool) (l : List ChildView) : Prop :=
  ¬ Decided orNode l → ∀ c, selected orNode pnDn l = some c → nodeOpp orNode pnDn l c < kInf

/-- A summary that takes no count for a verdict: its own numbers are valid, the child to descend to
is there and unresolved, all unresolved children are counted, and a node is exhausted only by
verdicts against it. -/
structure Faithful (orNode : Bool) (l : List ChildView) (s : Summary) : Prop where
  valid : s.view.Valid
  verdict : s.terminal = true → s.view = mateView ∨ s.view = noMateView
  best : s.terminal = false → ∃ i c, s.best = some i ∧ l[i]? = some c ∧ c.Unresolved
  counted : s.terminal = false → s.k = (l.filter fun c => decide c.Unresolved).length
  exhausted : s.terminal = true → s.best = none → ∀ c ∈ l, c = lostView orNode

section Summary

variable {orNode pnDn : Bool} {c : ChildView} {l : List ChildView} {i : Nat}

theorem valid_wonView : (wonView orNode).Valid :=
  (valid_iff orNode).mpr (Or.inl rfl)

theorem valid_lostView : (lostView orNode).Valid :=
  (valid_iff orNode).mpr (Or.inr (Or.inl rfl))

theorem wonView_cases : wonView orNode = mateView ∨ wonView orNode = noMateView := by
  cases orNode
  · exact Or.inr rfl
  · exact Or.inl rfl

theorem lostView_cases : lostView orNode = mateView ∨ lostView orNode = noMateView := by
  cases orNode
  · exact Or.inl rfl
  · exact Or.inr rfl

/-- The three outcomes of `Summarize` on valid views. -/
inductive Outcome (orNode pnDn : Bool) (l : List ChildView) (s : Summary) : Prop
  | won (i : Nat) (best : s.best = some i) (decided : Decided orNode l) (view : s.view = wonView orNode)
      (terminal : s.terminal = true)
  | lost (best : s.best = none) (all : ∀ c ∈ l, c = lostView orNode) (view : s.view = lostView orNode)
      (terminal : s.terminal = true)
  | unresolved (i : Nat) (c : ChildView) (best : s.best = some i) (child : l[i]? = some c)
      (open_ : c.Unresolved) (undecided : ¬ Decided orNode l) (sel : selected orNode pnDn l = some c)
      (k : s.k = active orNode l)
      (view : s.view = .ofRel orNode (c.rel orNode)
        (if kInf ≤ nodeOpp orNode pnDn l c then kInf else nodeOpp orNode pnDn l c))
      (terminal : s.terminal = false)

/-- The unresolved children are the active ones if none decides the node. -/
theorem filter_unresolved_eq (hl : ∀ c ∈ l, c.Valid) (hne : ∀ c ∈ l, c.rel orNode ≠ 0) :
    l.filter (fun c => decide c.Unresolved) = l.filter (fun c => decide (c.Active orNode)) := by
  refine List.filter_congr fun c hc => ?_
  rcases (hl c hc).cases (hne c hc) with ⟨rfl, hinactive, hopp⟩ | ⟨hu, hactive, -⟩
  · rw [decide_eq_false hinactive, decide_eq_false]
    intro hu
    have := ((unresolved_iff orNode).mp hu).2.1
    omega
  · rw [decide_eq_true hu, decide_eq_true hactive]

theorem filter_unresolved (hl : ∀ c ∈ l, c.Valid) (hne : ¬ Decided orNode l) :
    (l.filter fun c => decide c.Unresolved).length = active orNode l := by
  rw [filter_unresolved_eq hl fun c hc h => hne ⟨c, hc, h⟩, active]

/-- The sum of the opposite numbers is zero only if all children are lost. -/
theorem oppSum_eq_zero (hl : ∀ c ∈ l, c.Valid) (hne : ¬ Decided orNode l) :
    oppSum orNode l = 0 ↔ active orNode l = 0 := by
  rw [oppSum, List.sum_eq_zero_iff, active_eq_zero]
  simp only [List.mem_map, forall_exists_index, and_imp, forall_apply_eq_imp_iff₂]
  refine forall₂_congr fun c hc => ?_
  rcases (hl c hc).cases (fun h => hne ⟨c, hc, h⟩) with ⟨-, hinactive, hopp⟩ | ⟨-, hactive, hopp⟩
  · exact iff_of_true hopp hinactive
  · exact iff_of_false (by omega) (not_not.mpr hactive)

theorem summarize_outcome (orNode pnDn : Bool) (hl : ∀ c ∈ l, c.Valid) :
    Outcome orNode pnDn l (summarize orNode pnDn l) := by
  rcases @scan_spec orNode pnDn l with ⟨i, c, hscan, hi, hzero⟩ | ⟨t, hscan, ht, hne⟩
  · have hmem : c ∈ l := List.mem_of_getElem? hi
    rw [summarize, hscan]
    refine .won i rfl ⟨c, hmem, hzero⟩ ?_ ?_
    · cases orNode <;> rfl
    · cases orNode <;> rfl
  · have hundecided : ¬ Decided orNode l := fun ⟨c, hc, h⟩ => hne c hc h
    have hexhausted : (if pnDn then t.oppSum = 0 else t.k = 0) ↔ active orNode l = 0 := by
      cases hp : pnDn with
      | true => rw [if_pos rfl, ht.sum hp, oppSum_eq_zero hl hundecided]
      | false => rw [if_neg Bool.false_ne_true, ht.k]
    rw [summarize, hscan]
    simp only
    by_cases hk : active orNode l = 0
    · rw [if_pos (hexhausted.mpr hk)]
      refine .lost rfl (fun c hc => ?_) ?_ ?_
      · rcases (hl c hc).cases (hne c hc) with ⟨h, -, -⟩ | ⟨-, hactive, -⟩
        · exact h
        · exact absurd hactive (active_eq_zero.mp hk c hc)
      · cases orNode <;> rfl
      · cases orNode <;> rfl
    · rw [if_neg (mt hexhausted.mp hk)]
      cases hbest : t.best with
      | none => exact absurd (selected_eq_none.mp (ht.empty hbest).1) hk
      | some i =>
        obtain ⟨c, hc, hsel, hrel, hopp⟩ := ht.best i hbest
        have hmem : c ∈ l := List.mem_of_getElem? hc
        have hopen : c.Unresolved := by
          rcases (hl c hmem).cases (hne c hmem) with ⟨-, hinactive, -⟩ | ⟨hu, -, -⟩
          · exact absurd (selected_mem hsel).2 hinactive
          · exact hu
        refine .unresolved i c rfl hc hopen hundecided hsel ht.k ?_ rfl
        have hview : (if pnDn then (if kInf ≤ t.oppSum then kInf else t.oppSum)
            else satAdd t.bestOpp (t.k - 1)) =
            if kInf ≤ nodeOpp orNode pnDn l c then kInf else nodeOpp orNode pnDn l c := by
          rw [nodeOpp, satAdd, hopp, ht.k]
          cases hp : pnDn with
          | true => rw [if_pos rfl, if_pos rfl, ht.sum hp]
          | false => rw [if_neg Bool.false_ne_true, if_neg Bool.false_ne_true]
        rw [Summary.view, hview, hrel]
        cases orNode <;> rfl

/-- A summary of valid views takes a count for a verdict exactly where its own number saturates. -/
theorem faithful_summarize_iff (hl : ∀ c ∈ l, c.Valid) :
    Faithful orNode l (summarize orNode pnDn l) ↔ Unsaturated orNode pnDn l := by
  cases summarize_outcome orNode pnDn hl with
  | won i best decided view terminal =>
    refine iff_of_true ⟨view ▸ valid_wonView, fun _ => view ▸ wonView_cases, ?_, ?_, ?_⟩
      (fun h => absurd decided h)
    · exact fun h => absurd terminal (by rw [h]; exact Bool.false_ne_true)
    · exact fun h => absurd terminal (by rw [h]; exact Bool.false_ne_true)
    · exact fun _ h => by rw [best] at h; cases h
  | lost best all view terminal =>
    refine iff_of_true ⟨view ▸ valid_lostView, fun _ => view ▸ lostView_cases, ?_, ?_, fun _ _ => all⟩
      fun _ c hsel => ?_
    · exact fun h => absurd terminal (by rw [h]; exact Bool.false_ne_true)
    · exact fun h => absurd terminal (by rw [h]; exact Bool.false_ne_true)
    · obtain ⟨hmem, hactive⟩ := selected_mem hsel
      rw [all c hmem, ChildView.Active, lostView, rel_ofRel] at hactive
      exact absurd hactive (lt_irrefl _)
  | unresolved i c best child open_ undecided sel k view terminal =>
    have hnot : ¬ (summarize orNode pnDn l).terminal = true := by
      rw [terminal]
      exact Bool.false_ne_true
    have hopen := (unresolved_iff orNode).mp open_
    constructor
    · intro h _ d hd
      obtain rfl : c = d := Option.some.inj (sel.symm.trans hd)
      by_contra hsat
      rw [not_lt] at hsat
      have hvalid := h.valid
      rw [view, if_pos hsat, valid_iff orNode, rel_ofRel, opp_ofRel] at hvalid
      rcases hvalid with he | he | ⟨-, -, hlt⟩
      · have := congrArg (ChildView.rel orNode) he
        rw [wonView, rel_ofRel, rel_ofRel] at this
        omega
      · have := congrArg (ChildView.rel orNode) he
        rw [lostView, rel_ofRel, rel_ofRel] at this
        omega
      · exact lt_irrefl _ hlt
    · intro h
      have hcount := h undecided c sel
      have hpos : 1 ≤ nodeOpp orNode pnDn l c := by
        rw [nodeOpp]
        split
        · have hmem := List.mem_of_getElem? child
          have := List.single_le_sum (l := l.map (ChildView.opp orNode)) (fun _ _ => Nat.zero_le _)
            _ (List.mem_map_of_mem hmem)
          exact hopen.2.1.trans this
        · omega
      refine ⟨?_, fun h => absurd h hnot, fun _ => ⟨i, c, best, child, open_⟩, fun _ => ?_,
        fun h => absurd h hnot⟩
      · rw [view, if_neg (not_le.mpr hcount), valid_iff orNode, rel_ofRel, opp_ofRel]
        exact Or.inr (Or.inr ⟨hopen.1, hpos, hcount⟩)
      · rw [k, filter_unresolved hl undecided]

end Summary

end Bns

end Shogi
