import ShogiEngine.Mate.BnsNumbers

/-!
# Exact summaries and child thresholds

What `Summarize` says of a list of children, and why the thresholds of `ChildThresholds` make progress.

## Main definitions

- `leastRel`: the least relevant number of the unresolved children
- `ExactSummary`: what a summary should be
- `Ranked`: what the loop knows of the second-best child

## Main results

- `summarize_exact`: the summary of valid views is what it should be
- `childThresholds_progress`: the thresholds exceed the numbers of the selected child, and once it has
  reached one of them the parent does not select it again below its own thresholds
-/

namespace Shogi

namespace Bns

/-! ## The second-best child -/

/-- The least relevant number of the unresolved children, `kInf` if there is none. -/
def leastRel (orNode : Bool) (l : List ChildView) : Nat :=
  ((l.filter fun c => decide c.Unresolved).map (ChildView.rel orNode)).foldr min kInf

/-- The same for the active children. -/
def leastActive (orNode : Bool) (l : List ChildView) : Nat :=
  ((l.filter fun c => decide (c.Active orNode)).map (ChildView.rel orNode)).foldr min kInf

/-- The tally knows the least number, and the least one beside the best child. -/
structure Ranked (orNode : Bool) (l : List ChildView) (t : Tally) : Prop where
  least : t.bestRel = leastActive orNode l
  empty : t.best = none → t.second = kInf ∧ t.bestRel = kInf
  second : ∀ i, t.best = some i → i < l.length ∧ t.second = leastActive orNode (l.eraseIdx i)

section Ranked

variable {orNode pnDn : Bool} {c : ChildView} {l : List ChildView} {t : Tally} {i n : Nat}

theorem foldr_min_append (l : List Nat) (x : Nat) :
    (l ++ [x]).foldr min kInf = min (l.foldr min kInf) x := by
  induction l with
  | nil =>
    rw [List.nil_append, List.foldr_cons, List.foldr_nil, min_comm]
  | cons y l ih => rw [List.cons_append, List.foldr_cons, ih, List.foldr_cons, min_assoc]

theorem le_foldr_min {x : Nat} (l : List Nat) :
    x ≤ l.foldr min kInf ↔ x ≤ kInf ∧ ∀ y ∈ l, x ≤ y := by
  induction l with
  | nil => exact ⟨fun h => ⟨h, fun y hy => absurd hy List.not_mem_nil⟩, fun h => h.1⟩
  | cons y l ih =>
    rw [List.foldr_cons, le_min_iff, ih, List.forall_mem_cons]
    exact and_left_comm

theorem le_leastActive {x : Nat} :
    x ≤ leastActive orNode l ↔ x ≤ kInf ∧ ∀ c ∈ l, c.Active orNode → x ≤ c.rel orNode := by
  rw [leastActive, le_foldr_min]
  refine and_congr_right fun _ => ?_
  rw [List.forall_mem_map]
  simp only [List.mem_filter, decide_eq_true_eq, and_imp]

theorem leastActive_le (l : List ChildView) : leastActive orNode l ≤ kInf :=
  (le_leastActive.mp le_rfl).1

/-- Every active child bounds the least number. -/
theorem leastActive_le_rel (hc : c ∈ l) (hactive : c.Active orNode) :
    leastActive orNode l ≤ c.rel orNode :=
  (le_leastActive.mp le_rfl).2 c hc hactive

theorem leastActive_le_eraseIdx : leastActive orNode l ≤ leastActive orNode (l.eraseIdx i) :=
  le_leastActive.mpr ⟨leastActive_le l, fun _ hc hactive =>
    leastActive_le_rel (List.mem_of_mem_eraseIdx hc) hactive⟩

theorem leastActive_concat (hc : c.Active orNode) :
    leastActive orNode (l ++ [c]) = min (leastActive orNode l) (c.rel orNode) := by
  rw [leastActive, filter_active_concat, if_pos hc, List.map_append]
  exact foldr_min_append _ _

theorem leastActive_concat_of_not_active (hc : ¬ c.Active orNode) :
    leastActive orNode (l ++ [c]) = leastActive orNode l := by
  rw [leastActive, filter_active_concat, if_neg hc, List.append_nil, leastActive]

theorem ranked_start : Ranked orNode [] .start where
  least := by
    rw [leastActive, List.filter_nil, List.map_nil, List.foldr_nil, Tally.start]
  empty _ := ⟨rfl, rfl⟩
  second _ h := by cases h

theorem eraseIdx_concat (h : i < l.length) : (l ++ [c]).eraseIdx i = l.eraseIdx i ++ [c] :=
  List.eraseIdx_append_of_lt_length h [c]

theorem eraseIdx_concat_length : (l ++ [c]).eraseIdx l.length = l := by
  rw [List.eraseIdx_append_of_length_le le_rfl, Nat.sub_self]
  exact List.append_nil l

/-- A child that takes no part changes nothing. -/
theorem Ranked.skip (h : Ranked orNode l t) (hc : ¬ c.Active orNode) :
    Ranked orNode (l ++ [c]) (if pnDn then { t with oppSum := n } else t) := by
  have hfields : ∀ u : Tally, u.bestRel = t.bestRel → u.best = t.best → u.second = t.second →
      Ranked orNode (l ++ [c]) u := by
    intro u hrel hbest hsecond
    refine ⟨?_, fun hnone => ?_, fun i hi => ?_⟩
    · rw [hrel, h.least, leastActive_concat_of_not_active hc]
    · rw [hsecond, hrel]
      exact h.empty (hbest ▸ hnone)
    · obtain ⟨hlt, heq⟩ := h.second i (hbest ▸ hi)
      refine ⟨by rw [List.length_append]; omega, ?_⟩
      rw [hsecond, heq, eraseIdx_concat hlt, leastActive_concat_of_not_active hc]
  cases pnDn
  · exact hfields _ rfl rfl rfl
  · exact hfields _ rfl rfl rfl

/-- An active child is ranked. -/
theorem Ranked.count (h : Ranked orNode l t) (hc : c.Active orNode) :
    Ranked orNode (l ++ [c])
      ((if pnDn then { t with oppSum := n } else t).count pnDn l.length (c.rel orNode)
        (c.opp orNode)) := by
  have hfields : ∀ u : Tally, u.bestRel = t.bestRel → u.best = t.best → u.second = t.second →
      Ranked orNode (l ++ [c]) (u.count pnDn l.length (c.rel orNode) (c.opp orNode)) := by
    intro u hrel hbest hsecond
    rw [Tally.count]
    by_cases hnew : (decide (c.rel orNode < u.bestRel) ||
        pnDn && decide (c.rel orNode = u.bestRel) && decide (c.opp orNode < u.bestOpp)) = true
    · -- the best child so far comes second
      have hle : c.rel orNode ≤ leastActive orNode l := by
        rw [← h.least, ← hrel]
        simp only [Bool.or_eq_true, Bool.and_eq_true, decide_eq_true_eq] at hnew
        omega
      rw [if_pos hnew]
      refine ⟨?_, fun hnone => absurd hnone (Option.some_ne_none _), fun i hi => ?_⟩
      · rw [leastActive_concat hc, min_eq_right hle]
      · cases hi
        rw [eraseIdx_concat_length]
        refine ⟨by rw [List.length_append]; exact Nat.lt_succ_self _, ?_⟩
        exact hrel.trans h.least
    · have hge : t.bestRel ≤ c.rel orNode := by
        simp only [Bool.or_eq_true, decide_eq_true_eq, not_or] at hnew
        rw [← hrel]
        omega
      obtain ⟨i, hi⟩ : ∃ i, t.best = some i := by
        by_contra hnone
        have hbestRel := (h.empty (Option.eq_none_iff_forall_ne_some.mpr fun i hi => hnone ⟨i, hi⟩)).2
        rw [hbestRel] at hge
        exact absurd hc (not_lt.mpr hge)
      obtain ⟨hlt, heq⟩ := h.second i hi
      have hresult : ∀ v : Tally, v.bestRel = t.bestRel → v.best = t.best →
          v.second = min t.second (c.rel orNode) → Ranked orNode (l ++ [c]) v := by
        intro v hvrel hvbest hvsecond
        refine ⟨?_, fun hnone => ?_, fun j hj => ?_⟩
        · rw [hvrel, leastActive_concat hc, ← h.least, min_eq_left hge]
        · rw [hvbest, hi] at hnone
          cases hnone
        · rw [hvbest, hi] at hj
          cases hj
          refine ⟨by rw [List.length_append]; omega, ?_⟩
          rw [hvsecond, heq, eraseIdx_concat hlt, leastActive_concat hc]
      rw [if_neg hnew]
      split
      · rename_i hless
        refine hresult _ hrel hbest ?_
        rw [hsecond] at hless
        exact (min_eq_right hless.le).symm
      · rename_i hless
        refine hresult _ hrel hbest ?_
        rw [hsecond] at hless ⊢
        exact (min_eq_left (not_lt.mp hless)).symm
  cases pnDn
  · exact hfields _ rfl rfl rfl
  · exact hfields _ rfl rfl rfl

end Ranked

/-! ## Summaries -/

/-- What a summary of the children `l` should be: the node is proved or disproved exactly when the
children decide it, and otherwise an unresolved child of least relevant number is selected, the least
number of the other unresolved ones comes second, the unresolved ones are counted, and the numbers of
the node combine those of the children. -/
structure ExactSummary (orNode pnDn : Bool) (l : List ChildView) (s : Summary) : Prop where
  proved : s.proved = true ↔ if orNode then mateView ∈ l else ∀ c ∈ l, c = mateView
  disproved : s.disproved = true ↔ if orNode then ∀ c ∈ l, c = noMateView else noMateView ∈ l
  mate : s.proved = true → s.view = mateView
  noMate : s.disproved = true → s.view = noMateView
  select : s.terminal = false → ∃ i c, s.best = some i ∧ l[i]? = some c ∧ c.Unresolved ∧
    (∀ d ∈ l, d.Unresolved → c.rel orNode ≤ d.rel orNode) ∧
    s.second = leastRel orNode (l.eraseIdx i) ∧
    s.k = (l.filter fun d => decide d.Unresolved).length ∧
    s.view.rel orNode = c.rel orNode ∧
    s.view.opp orNode = min kInf (if pnDn then oppSum orNode l else c.opp orNode + (s.k - 1))

section Summary

variable {orNode pnDn : Bool} {c d : ChildView} {l : List ChildView} {i : Nat}

/-- What the summary of an undecided node is made of. -/
structure Made (orNode pnDn : Bool) (l : List ChildView) (s : Summary) (t : Tally) : Prop where
  tallied : Tallied orNode pnDn l t
  ranked : Ranked orNode l t
  undecided : ∀ c ∈ l, c.rel orNode ≠ 0
  best : s.best = t.best
  second : s.second = t.second
  k : s.k = t.k
  rel : s.view.rel orNode = t.bestRel
  opp : s.view.opp orNode = min kInf (if pnDn then t.oppSum else t.bestOpp + (t.k - 1))

/-- The summary of an undecided node. -/
def Tally.summary (orNode pnDn : Bool) (t : Tally) : Summary :=
  let nodeOpp := if pnDn then (if kInf ≤ t.oppSum then kInf else t.oppSum)
    else satAdd t.bestOpp (t.k - 1)
  { abn := if orNode then t.bestRel else nodeOpp
    obn := if orNode then nodeOpp else t.bestRel
    best := t.best
    second := t.second
    k := t.k
    proved := false
    disproved := false }

theorem summarize_tallied {t : Tally} (hscan : scan orNode pnDn l 0 .start = .tallied t)
    (hopen : (summarize orNode pnDn l).terminal = false) :
    summarize orNode pnDn l = t.summary orNode pnDn := by
  rw [summarize, hscan] at hopen ⊢
  simp only at hopen ⊢
  by_cases hexhausted : if pnDn then t.oppSum = 0 else t.k = 0
  · rw [if_pos hexhausted] at hopen
    cases orNode <;> cases hopen
  · rw [if_neg hexhausted, Tally.summary]

theorem rel_tallyView {t : Tally} : (t.summary orNode pnDn).view.rel orNode = t.bestRel := by
  cases orNode <;> rfl

theorem opp_tallyView {t : Tally} : (t.summary orNode pnDn).view.opp orNode =
    min kInf (if pnDn then t.oppSum else t.bestOpp + (t.k - 1)) := by
  have hopp : (t.summary orNode pnDn).view.opp orNode =
      if pnDn then (if kInf ≤ t.oppSum then kInf else t.oppSum) else satAdd t.bestOpp (t.k - 1) := by
    cases orNode <;> rfl
  rw [hopp, satAdd, min_def]
  cases pnDn
  · rw [if_neg Bool.false_ne_true, if_neg Bool.false_ne_true]
  · rw [if_pos rfl, if_pos rfl]

theorem exists_made (hopen : (summarize orNode pnDn l).terminal = false) :
    ∃ t, Made orNode pnDn l (summarize orNode pnDn l) t := by
  rcases @scan_induction orNode pnDn l .start
    (fun done t => Tallied orNode pnDn done t ∧ Ranked orNode done t)
    (fun _ _ _ h hc => ⟨h.1.skip hc, h.2.skip hc⟩) (fun _ _ _ h hc => ⟨h.1.count hc, h.2.count hc⟩) []
    ⟨tallied_nil, ranked_start⟩ (fun _ hc => absurd hc List.not_mem_nil) with
    ⟨i, c, hscan, -, -⟩ | ⟨t, hscan, ⟨htallied, hranked⟩, hne⟩
  · rw [summarize, show scan orNode pnDn l 0 .start = .decided i from hscan] at hopen
    cases orNode <;> cases hopen
  · have hmade := summarize_tallied hscan hopen
    exact ⟨t, htallied, hranked, hne, congrArg Summary.best hmade, congrArg Summary.second hmade,
      congrArg Summary.k hmade, by rw [hmade, rel_tallyView], by rw [hmade, opp_tallyView]⟩

theorem leastRel_eq (hl : ∀ c ∈ l, c.Valid) (hne : ∀ c ∈ l, c.rel orNode ≠ 0) :
    leastRel orNode l = leastActive orNode l := by
  rw [leastRel, leastActive, filter_unresolved_eq hl hne]

/-- The child that an undecided node selects. -/
theorem Made.selects {s : Summary} {t : Tally} (h : Made orNode pnDn l s t) (hbest : s.best = some i)
    (hi : l[i]? = some c) : c.Active orNode ∧ s.view.rel orNode = c.rel orNode ∧
      c.rel orNode = leastActive orNode l ∧ s.second = leastActive orNode (l.eraseIdx i) ∧
      s.view.opp orNode = min kInf (nodeOpp orNode pnDn l c) := by
  rw [h.best] at hbest
  obtain ⟨d, hd, hsel, hrel, hopp⟩ := h.tallied.best i hbest
  obtain rfl : c = d := Option.some.inj (hi.symm.trans hd)
  refine ⟨(selected_mem hsel).2, h.rel.trans hrel, hrel.symm.trans h.ranked.least,
    h.second.trans (h.ranked.second i hbest).2, ?_⟩
  rw [h.opp, nodeOpp, hopp, h.tallied.k]
  cases hp : pnDn with
  | false => rw [if_neg Bool.false_ne_true, if_neg Bool.false_ne_true]
  | true => rw [if_pos rfl, if_pos rfl, h.tallied.sum hp]

theorem mateView_ne : mateView ≠ noMateView := by decide

/-- The flags of a summary agree with its numbers. -/
theorem flags_summarize : ((summarize orNode pnDn l).proved = true ↔
      (summarize orNode pnDn l).terminal = true ∧ (summarize orNode pnDn l).view = mateView) ∧
    ((summarize orNode pnDn l).disproved = true ↔
      (summarize orNode pnDn l).terminal = true ∧ (summarize orNode pnDn l).view = noMateView) := by
  have hflags : ((summarize orNode pnDn l).proved = true →
        (summarize orNode pnDn l).view = mateView) ∧
      ((summarize orNode pnDn l).disproved = true →
        (summarize orNode pnDn l).view = noMateView) := by
    rw [summarize]
    cases scan orNode pnDn l 0 .start with
    | decided i =>
      cases orNode
      · exact ⟨fun h => Bool.noConfusion h, fun _ => rfl⟩
      · exact ⟨fun _ => rfl, fun h => Bool.noConfusion h⟩
    | tallied t =>
      simp only
      by_cases hexhausted : if pnDn then t.oppSum = 0 else t.k = 0
      · rw [if_pos hexhausted]
        cases orNode
        · exact ⟨fun _ => rfl, fun h => Bool.noConfusion h⟩
        · exact ⟨fun h => Bool.noConfusion h, fun _ => rfl⟩
      · rw [if_neg hexhausted]
        exact ⟨fun h => Bool.noConfusion h, fun h => Bool.noConfusion h⟩
  rw [Summary.terminal, Bool.or_eq_true]
  refine ⟨⟨fun h => ⟨Or.inl h, hflags.1 h⟩, ?_⟩, ⟨fun h => ⟨Or.inr h, hflags.2 h⟩, ?_⟩⟩
  · rintro ⟨h | h, hview⟩
    · exact h
    · exact absurd (hview.symm.trans (hflags.2 h)) mateView_ne
  · rintro ⟨h | h, hview⟩
    · exact absurd ((hflags.1 h).symm.trans hview) mateView_ne
    · exact h

theorem wonView_ne_lostView : wonView orNode ≠ lostView orNode := by
  cases orNode <;> decide

theorem mem_wonView_iff (hl : ∀ c ∈ l, c.Valid) : wonView orNode ∈ l ↔ Decided orNode l := by
  refine ⟨fun h => ⟨_, h, rel_ofRel⟩, fun ⟨c, hc, hzero⟩ => ?_⟩
  rcases (valid_iff orNode).mp (hl c hc) with rfl | rfl | hu
  · exact hc
  · rw [lostView, rel_ofRel] at hzero
    exact absurd hzero kInf_pos.ne'
  · omega

/-- The node is won exactly when a child is, and lost exactly when all are. -/
theorem terminal_iff (hl : ∀ c ∈ l, c.Valid) (pnDn : Bool) :
    ((summarize orNode pnDn l).terminal = true ∧
        (summarize orNode pnDn l).view = wonView orNode ↔ wonView orNode ∈ l) ∧
      ((summarize orNode pnDn l).terminal = true ∧
        (summarize orNode pnDn l).view = lostView orNode ↔ ∀ c ∈ l, c = lostView orNode) := by
  rw [mem_wonView_iff hl]
  have hlost : (∀ c ∈ l, c = lostView orNode) → ¬ Decided orNode l := by
    rintro hall ⟨c, hc, hzero⟩
    rw [hall c hc, lostView, rel_ofRel] at hzero
    exact kInf_pos.ne' hzero
  cases summarize_outcome orNode pnDn hl with
  | won i best decided view terminal =>
    refine ⟨iff_of_true ⟨terminal, view⟩ decided, iff_of_false ?_ fun h => hlost h decided⟩
    exact fun h => wonView_ne_lostView (view.symm.trans h.2)
  | lost best all view terminal =>
    refine ⟨iff_of_false ?_ (hlost all), iff_of_true ⟨terminal, view⟩ all⟩
    exact fun h => wonView_ne_lostView (h.2.symm.trans view)
  | unresolved i c best child open_ undecided sel k view terminal =>
    rw [terminal]
    refine ⟨iff_of_false (fun h => Bool.noConfusion h.1) undecided,
      iff_of_false (fun h => Bool.noConfusion h.1) fun h => ?_⟩
    -- the selected child is unresolved
    have hactive := (selected_mem sel).2
    rw [h c (List.mem_of_getElem? child), ChildView.Active, lostView, rel_ofRel] at hactive
    exact lt_irrefl _ hactive

/-- The summary of valid views is what it should be, for both kinds of nodes and both arithmetics. -/
theorem summarize_exact (orNode pnDn : Bool) (l : List ChildView) (hl : ∀ c ∈ l, c.Valid) :
    ExactSummary orNode pnDn l (summarize orNode pnDn l) where
  proved := by
    rw [flags_summarize.1]
    cases orNode
    · exact (terminal_iff hl pnDn).2
    · exact (terminal_iff hl pnDn).1
  disproved := by
    rw [flags_summarize.2]
    cases orNode
    · exact (terminal_iff hl pnDn).1
    · exact (terminal_iff hl pnDn).2
  mate h := (flags_summarize.1.mp h).2
  noMate h := (flags_summarize.2.mp h).2
  select hopen := by
    obtain ⟨t, hmade⟩ := exists_made hopen
    cases summarize_outcome orNode pnDn hl with
    | won _ _ _ _ terminal => exact Bool.noConfusion (hopen.symm.trans terminal)
    | lost _ _ _ terminal => exact Bool.noConfusion (hopen.symm.trans terminal)
    | unresolved i c best child open_ undecided sel k view terminal =>
      obtain ⟨hactive, hrel, hleast, hsecond, hopp⟩ := hmade.selects best child
      have hk : (summarize orNode pnDn l).k = (l.filter fun d => decide d.Unresolved).length := by
        rw [k, filter_unresolved hl undecided]
      refine ⟨i, c, best, child, open_, fun d hd hu => ?_, ?_, hk, hrel, ?_⟩
      · rw [hleast]
        exact leastActive_le_rel hd ((unresolved_iff orNode).mp hu).1.2
      · have herased : ∀ d ∈ l.eraseIdx i, d ∈ l := fun d hd => List.mem_of_mem_eraseIdx hd
        rw [hsecond, leastRel_eq (fun d hd => hl d (herased d hd))
          fun d hd => hmade.undecided d (herased d hd)]
      · rw [hopp, nodeOpp, k]

theorem summarize_exact_tie : ExactSummary true false [⟨5, 9⟩, noMateView, ⟨2, 7⟩, ⟨2, 1⟩]
    (summarize true false [⟨5, 9⟩, noMateView, ⟨2, 7⟩, ⟨2, 1⟩]) :=
  summarize_exact true false _ (by decide)

end Summary

/-! ## Thresholds -/

/-- A number has reached its threshold, so that the search of the node is over. -/
def Reached (v th : ChildView) : Prop := th.abn ≤ v.abn ∨ th.obn ≤ v.obn

/-- The thresholds of `ChildThresholds` as a pair of numbers. -/
def thresholds (orNode : Bool) (s : Summary) (best th : ChildView) : ChildView :=
  ⟨(childThresholds orNode s best th.abn th.obn).1, (childThresholds orNode s best th.abn th.obn).2⟩

/-- What the other children add to the opposite number of the selected one. -/
def siblings (orNode pnDn : Bool) (others : List ChildView) : Nat :=
  if pnDn then oppSum orNode others else active orNode others

/-- What thresholds for the selected child `i` are good for: the subtraction does not underflow, both
numbers of the child lie below, and once a number has reached its threshold the parent is decided,
has reached one of its own or turns to another child. -/
structure Progress (orNode pnDn : Bool) (l : List ChildView) (i : Nat) (c th : ChildView) : Prop where
  exact : c.opp orNode ≤ (summarize orNode pnDn l).view.opp orNode ∧ (th.opp orNode < kInf →
    (summarize orNode pnDn l).view.opp orNode - c.opp orNode ≤ th.opp orNode ∧
      (thresholds orNode (summarize orNode pnDn l) c th).opp orNode =
        th.opp orNode - ((summarize orNode pnDn l).view.opp orNode - c.opp orNode))
  exceeds : ¬ Reached c (thresholds orNode (summarize orNode pnDn l) c th)
  progress : ∀ c' : ChildView, c'.Valid ∨ th.abn ≤ kInf ∧ th.obn ≤ kInf →
    Reached c' (thresholds orNode (summarize orNode pnDn l) c th) →
    (summarize orNode pnDn (l.set i c')).terminal = true ∨
      Reached (summarize orNode pnDn (l.set i c')).view th ∨
      (summarize orNode pnDn (l.set i c')).best ≠ some i

section Thresholds

variable {orNode pnDn : Bool} {c th v : ChildView} {l : List ChildView} {i : Nat} {s : Summary}

theorem reached_iff (orNode : Bool) :
    Reached v th ↔ th.rel orNode ≤ v.rel orNode ∨ th.opp orNode ≤ v.opp orNode := by
  cases orNode with
  | true => exact Iff.rfl
  | false => exact or_comm

theorem rel_thresholds : (thresholds orNode s c th).rel orNode =
    min (th.rel orNode) (satAdd s.second 1) := by
  have hrel : (thresholds orNode s c th).rel orNode =
      if th.rel orNode < satAdd s.second 1 then th.rel orNode else satAdd s.second 1 := by
    cases orNode
    · simp only [thresholds, childThresholds, ChildView.rel, Bool.false_eq_true, if_false]
    · simp only [thresholds, childThresholds, ChildView.rel, if_true]
  rw [hrel, min_def]
  split
  · rw [if_pos (by omega)]
  · split <;> omega

theorem opp_thresholds : (thresholds orNode s c th).opp orNode =
    if kInf ≤ th.opp orNode then kInf
      else sub32 (th.opp orNode) (sub32 (s.view.opp orNode) (c.opp orNode)) := by
  cases orNode
  · simp only [thresholds, childThresholds, ChildView.opp, Summary.view, Bool.false_eq_true, if_false]
  · simp only [thresholds, childThresholds, ChildView.opp, Summary.view, if_true]

theorem sub32_eq {a b : Nat} (hle : b ≤ a) (ha : a < 2 ^ 32) : sub32 a b = a - b := by
  rw [sub32]
  omega

/-- The selected child adds its own number to what its siblings add. -/
theorem nodeOpp_eq (hi : l[i]? = some c) (hc : c.Active orNode) :
    nodeOpp orNode pnDn l c = c.opp orNode + siblings orNode pnDn (l.eraseIdx i) := by
  obtain ⟨hlt, hget⟩ := List.getElem?_eq_some_iff.mp hi
  have hperm : (c :: l.eraseIdx i).Perm l := by
    rw [← hget]
    exact List.getElem_cons_eraseIdx_perm hlt
  rw [nodeOpp, siblings]
  cases pnDn with
  | true =>
    rw [if_pos rfl, if_pos rfl, oppSum, ← (hperm.map _).sum_eq, List.map_cons, List.sum_cons, oppSum]
  | false =>
    have hactive : active orNode l = active orNode (l.eraseIdx i) + 1 := by
      rw [active, ← (hperm.filter _).length_eq, List.filter_cons, if_pos (decide_eq_true hc),
        List.length_cons, active]
    rw [if_neg Bool.false_ne_true, if_neg Bool.false_ne_true, hactive, Nat.add_sub_cancel]

theorem satAdd_one {a : Nat} : satAdd a 1 = min kInf (a + 1) := by
  rw [satAdd, min_def]

/-- The search of the selected child is not over before it begins. -/
theorem not_reached_thresholds {r : Nat} (hc : c.Unresolved) (hrel : c.rel orNode < th.rel orNode)
    (hsecond : c.rel orNode ≤ s.second) (hopp : s.view.opp orNode = min kInf (c.opp orNode + r))
    (hless : s.view.opp orNode < th.opp orNode) :
    (c.opp orNode ≤ s.view.opp orNode ∧ (th.opp orNode < kInf →
      s.view.opp orNode - c.opp orNode ≤ th.opp orNode ∧ (thresholds orNode s c th).opp orNode =
        th.opp orNode - (s.view.opp orNode - c.opp orNode))) ∧
      ¬ Reached c (thresholds orNode s c th) := by
  obtain ⟨⟨-, hrelInf⟩, -, hoppInf⟩ := (unresolved_iff orNode).mp hc
  have hkInf : kInf < 2 ^ 32 := by decide
  have hle : c.opp orNode ≤ s.view.opp orNode := by omega
  have hview : s.view.opp orNode ≤ kInf := hopp ▸ min_le_left _ _
  have hsub : th.opp orNode < kInf → (thresholds orNode s c th).opp orNode =
      th.opp orNode - (s.view.opp orNode - c.opp orNode) := by
    intro hth
    rw [opp_thresholds, if_neg (not_le.mpr hth), sub32_eq hle (by omega), sub32_eq (by omega) (by omega)]
  refine ⟨⟨hle, fun hth => ⟨by omega, hsub hth⟩⟩, ?_⟩
  rw [reached_iff orNode, not_or, not_le, not_le, rel_thresholds, satAdd_one]
  refine ⟨by omega, ?_⟩
  by_cases hth : kInf ≤ th.opp orNode
  · rw [opp_thresholds, if_pos hth]
    exact hoppInf
  · rw [hsub (not_le.mp hth)]
    omega

/-- A child that has reached a threshold makes its parent reach one if it is still selected. -/
theorem reached_of_selected {s' : Summary} {c' : ChildView} {r : Nat} (hle : c.opp orNode ≤ s.view.opp orNode)
    (hopp : s.view.opp orNode = min kInf (c.opp orNode + r))
    (hless : s.view.opp orNode < th.opp orNode) (hactive : c'.Active orNode)
    (hsecond : c'.rel orNode ≤ s.second) (hrel' : s'.view.rel orNode = c'.rel orNode)
    (hopp' : s'.view.opp orNode = min kInf (c'.opp orNode + r))
    (hvalid : c'.opp orNode < kInf ∨ th.opp orNode ≤ kInf)
    (hreached : Reached c' (thresholds orNode s c th)) : Reached s'.view th := by
  have hkInf : kInf < 2 ^ 32 := by decide
  have hview : s.view.opp orNode ≤ kInf := hopp ▸ min_le_left _ _
  rw [ChildView.Active] at hactive
  rw [reached_iff orNode, rel_thresholds, satAdd_one] at hreached
  rw [reached_iff orNode]
  rcases hreached with hreached | hreached
  · -- the child would come after the second one
    exact Or.inl (by omega)
  · right
    by_cases hth : kInf ≤ th.opp orNode
    · rw [opp_thresholds, if_pos hth] at hreached
      omega
    · rw [opp_thresholds, if_neg hth, sub32_eq hle (by omega), sub32_eq (by omega) (by omega)] at hreached
      omega

/-- The thresholds of the selected child of an undecided node below its own ones are progress. -/
theorem childThresholds_progress (orNode pnDn : Bool) (l : List ChildView) (abnTh obnTh : Nat)
    (hl : ∀ c ∈ l, c.Valid) (hopen : (summarize orNode pnDn l).terminal = false)
    (habn : (summarize orNode pnDn l).abn < abnTh) (hobn : (summarize orNode pnDn l).obn < obnTh) :
    ∃ i c, (summarize orNode pnDn l).best = some i ∧ l[i]? = some c ∧
      Progress orNode pnDn l i c ⟨abnTh, obnTh⟩ := by
  set th : ChildView := ⟨abnTh, obnTh⟩ with hth
  have hbelow : ¬ Reached (summarize orNode pnDn l).view th := not_or.mpr ⟨not_le.mpr habn, not_le.mpr hobn⟩
  rw [reached_iff orNode, not_or, not_le, not_le] at hbelow
  obtain ⟨i, c, hbest, hi, hc, -⟩ := (summarize_exact orNode pnDn l hl).select hopen
  obtain ⟨t, hmade⟩ := exists_made hopen
  obtain ⟨hactive, hrel, hleast, hsecond, hopp⟩ := hmade.selects hbest hi
  rw [nodeOpp_eq hi hactive] at hopp
  have hle : c.rel orNode ≤ (summarize orNode pnDn l).second := by
    rw [hsecond, hleast]
    exact leastActive_le_eraseIdx
  obtain ⟨hexact, hexceeds⟩ := not_reached_thresholds hc (hrel ▸ hbelow.1) hle hopp hbelow.2
  refine ⟨i, c, hbest, hi, hexact, hexceeds, fun c' hc' hreached => ?_⟩
  -- the parent is undecided and still selects the child
  by_contra hno
  rw [not_or, not_or, not_not, Bool.not_eq_true] at hno
  obtain ⟨hopen', hnot, hbest'⟩ := hno
  obtain ⟨t', hmade'⟩ := exists_made hopen'
  have hi' : (l.set i c')[i]? = some c' := List.getElem?_set_self (List.getElem?_eq_some_iff.mp hi).1
  obtain ⟨hactive', hrel', hleast', hsecond', hopp'⟩ := hmade'.selects hbest' hi'
  rw [nodeOpp_eq hi' hactive', List.eraseIdx_set_eq] at hopp'
  have hle' : c'.rel orNode ≤ (summarize orNode pnDn l).second := by
    rw [hsecond, hleast', ← List.eraseIdx_set_eq]
    exact leastActive_le_eraseIdx
  refine hnot (reached_of_selected hexact.1 hopp hbelow.2 hactive' hle' hrel' hopp' ?_ hreached)
  rcases hc' with hvalid | ⟨habnTh, hobnTh⟩
  · left
    rcases hvalid.cases (hmade'.undecided c' (List.mem_of_getElem? hi')) with ⟨-, hinactive, -⟩ | ⟨hu, -, -⟩
    · exact absurd hactive' hinactive
    · exact ((unresolved_iff orNode).mp hu).2.2
  · right
    cases orNode
    · exact habnTh
    · exact hobnTh

theorem childThresholds_progress_tie : ∃ i c, (summarize true false [⟨2, 7⟩, ⟨2, 1⟩]).best = some i ∧
    [⟨2, 7⟩, ⟨2, 1⟩][i]? = some c ∧ Progress true false [⟨2, 7⟩, ⟨2, 1⟩] i c ⟨5, 10⟩ :=
  childThresholds_progress true false _ 5 10 (by decide) (by decide) (by decide) (by decide)

end Thresholds

end Bns

end Shogi
