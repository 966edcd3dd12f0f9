import ShogiEngine.Mcts.NodeStates
import ShogiEngine.Mcts.SearchRules

/-!
# Proven edges

The flags `kWin`, `kLose` and `kDraw` are set from verdicts, and from scans of children whose flags other
threads are setting. As a flag once seen is true of a position for good, what a scan has put together
from several moments is true as well.

## Main definitions

- `FlagsOk`: every flag says the value of the position behind its edge
- `Vetted`: which positions a first visit has let through
- `Pc.Proves`: what a thread has found out about its position so far
- `ProvenEdges`: the flags in one state, and for a step from it

## Main results

- `provenEdges_of_grown`: in every search the flags are sound
-/

namespace Shogi.Mcts

variable {ι P M S : Type} {R : Rules P M} {ops : PuctOps S} {root : Addr} {i j : ι}
  {m m' : Memory ι P M} {pc pc' : Pc P S}

/-! ## What is known -/

/-- A flag is the value of the position behind its edge. -/
def FlagsOk (R : Rules P M) (m : Memory ι P M) : Prop :=
  ∀ e o, m.childFlags e o = true →
    ∃ mv, m.childMove e = some mv ∧ R.game.HasValue (R.doMove (m.pos e.1) mv) o

/-- A first visit finds neither a mate nor that there is no move. -/
def Rules.Quiet (R : Rules P M) (p : P) : Prop := R.hasMate p = false ∧ R.noMove p = false

/-- Nodes below the root have been through a first visit, unless they are fresh. -/
structure Vetted (R : Rules P M) (root : Addr) (m : Memory ι P M) : Prop where
  evaluated : ∀ a, root < a → m.state a = .evaluated → R.Quiet (m.pos a)
  expanded : ∀ a, root < a → m.state a = .expanded → R.Quiet (m.pos a) ∨
    (R.hasMate (m.pos a) = false ∧ R.noMove (m.pos a) = true ∧ m.childNum a = 0)

/-- Below the root no declaration, repetition or limit ends play at the position of the visit. -/
def Visit.Passed (R : Rules P M) (v : Visit P) : Prop :=
  v.path ≠ [] → R.adjudicate v.board false = none

/-- Below the root nothing ends play at the position of the visit. -/
def Visit.Open (R : Rules P M) (v : Visit P) : Prop := v.path ≠ [] → R.verdict v.board = none

/-- Below the root the position of the visit has a value. -/
def Visit.Valued (R : Rules P M) (v : Visit P) (o : Outcome) : Prop :=
  v.path ≠ [] → R.game.HasValue v.board o

/-- What the loop of `SelectPuctChild` knows of the first `k` moves. -/
structure Scanned (R : Rules P M) (p : P) (k : Nat) (s : Scan S) : Prop where
  allWin : s.allChildrenWin = true → ∀ j mv, j < k → (R.generateLegalMoves p)[j]? = some mv →
    R.game.HasValue (R.doMove p mv) .win
  allWinOrDraw : s.allChildrenWinOrDraw = true → ∀ j mv, j < k →
    (R.generateLegalMoves p)[j]? = some mv →
    R.game.HasValue (R.doMove p mv) .win ∨ R.game.HasValue (R.doMove p mv) .draw
  hasDraw : s.hasDraw = true → ∃ mv ∈ R.generateLegalMoves p, R.game.HasValue (R.doMove p mv) .draw

/-- What a thread has found out about its position. -/
def Pc.Proves (R : Rules P M) : Pc P S → Prop
  | .resolve v o _ => v.Valued R o.flag
  | .checkEvaled v | .lockEval v | .recheckEvaled v | .firstVisit v | .unlock v .expand
  | .unlock v .children | .checkExpanded v | .lockExpand v | .recheckExpanded v | .expandNode v
  | .newArray v | .writeMove v _ | .writePrior v _ | .clearVisited v | .setExpanded v
  | .readChildNum v => v.Passed R
  | .noMoves v | .publishNoMoves v => v.Passed R ∧ R.hasMate v.board = false ∧
      R.noMove v.board = true
  | .evaluateLeaf v | .setEvaled v _ => v.Passed R ∧ R.Quiet v.board
  | .loadSum v | .loadSumWin v _ | .loadVisited v _ _ => v.Open R
  | .scan v k s | .scanWin v k s => v.Open R ∧ Scanned R v.board k s
  | .scanDraw v k s => v.Open R ∧ Scanned R v.board k s ∧ s.allChildrenWin = false
  | .scanCount v k s | .scanChildWin v k s _ => v.Open R ∧ Scanned R v.board (k + 1) s
  | .setParent v o _ => v.Valued R o
  | _ => True

/-! ## Verdicts -/

section Verdict

variable {p : P} {v : Visit P} {o : EdgeOutcome}

theorem Rules.hasValue_of_adjudicate (h : R.adjudicate p false = some o) :
    R.game.HasValue p o.flag := by
  refine .verdict ?_
  change R.verdict p = some o.flag
  rw [Rules.verdict, if_pos (by rw [h]; exact Option.some_ne_none o), h, Option.map_some]

theorem Rules.verdict_of_adjudicate (h : R.adjudicate p false = none) :
    R.verdict p = if R.hasMate p then some .win else if R.noMove p then some .loss else none := by
  rw [Rules.verdict, if_neg (by rw [h]; exact fun hne => hne rfl)]

theorem Visit.Passed.valued_win (h : v.Passed R) (hmate : R.hasMate v.board = true) :
    v.Valued R .win := by
  intro hpath
  refine .verdict ?_
  change R.verdict v.board = some .win
  rw [Rules.verdict_of_adjudicate (h hpath), if_pos hmate]

theorem Visit.Passed.valued_loss (h : v.Passed R) (hmate : R.hasMate v.board = false)
    (hno : R.noMove v.board = true) : v.Valued R .loss := by
  intro hpath
  refine .verdict ?_
  change R.verdict v.board = some .loss
  rw [Rules.verdict_of_adjudicate (h hpath), hmate, if_neg Bool.false_ne_true, if_pos hno]

theorem Visit.Passed.open_of_quiet (h : v.Passed R) (hq : R.Quiet v.board) : v.Open R := by
  intro hpath
  rw [Rules.verdict_of_adjudicate (h hpath), hq.1, hq.2, if_neg Bool.false_ne_true,
    if_neg Bool.false_ne_true]

end Verdict

/-! ## Scans -/

section Scan

variable {p : P} {v : Visit P} {s : Scan S} {k : Nat} {mv : M}

theorem Scanned.init {sum : Int} {sumWin : ℚ} {visited : Num} :
    Scanned R p 0 (.init ops sum sumWin visited) where
  allWin _ j _ hj := absurd hj (Nat.not_lt_zero j)
  allWinOrDraw _ j _ hj := absurd hj (Nat.not_lt_zero j)
  hasDraw h := by cases h

/-- A child proven to win for the opponent is passed over. -/
theorem Scanned.skip (h : Scanned R p k s) (hmv : (R.generateLegalMoves p)[k]? = some mv)
    (hwin : R.game.HasValue (R.doMove p mv) .win) : Scanned R p (k + 1) s where
  allWin hs j mv' hj hmv' := by
    obtain hlt | heq := Nat.lt_succ_iff_lt_or_eq.mp hj
    · exact h.allWin hs j mv' hlt hmv'
    · subst heq
      rw [hmv, Option.some.injEq] at hmv'
      exact hmv' ▸ hwin
  allWinOrDraw hs j mv' hj hmv' := by
    obtain hlt | heq := Nat.lt_succ_iff_lt_or_eq.mp hj
    · exact h.allWinOrDraw hs j mv' hlt hmv'
    · subst heq
      rw [hmv, Option.some.injEq] at hmv'
      exact Or.inl (hmv' ▸ hwin)
  hasDraw := h.hasDraw

theorem Scanned.notWin (h : Scanned R p k s) :
    Scanned R p k { s with allChildrenWin := false } where
  allWin hs := by cases hs
  allWinOrDraw := h.allWinOrDraw
  hasDraw := h.hasDraw

/-- The test for a draw of a child that is not proven to win for the opponent. -/
theorem Scanned.seeDraw (h : Scanned R p k s) (hnot : s.allChildrenWin = false)
    (hmv : (R.generateLegalMoves p)[k]? = some mv) {b : Bool}
    (hb : b = true → R.game.HasValue (R.doMove p mv) .draw) :
    Scanned R p (k + 1) (s.seeDraw b) := by
  cases b with
  | false =>
    refine ⟨fun hs => ?_, fun hs => ?_, h.hasDraw⟩
    · rw [show (s.seeDraw false).allChildrenWin = s.allChildrenWin from rfl, hnot] at hs
      cases hs
    · cases hs
  | true =>
    refine ⟨fun hs => ?_, fun hs j mv' hj hmv' => ?_, fun _ => ?_⟩
    · rw [show (s.seeDraw true).allChildrenWin = s.allChildrenWin from rfl, hnot] at hs
      cases hs
    · obtain hlt | heq := Nat.lt_succ_iff_lt_or_eq.mp hj
      · exact h.allWinOrDraw hs j mv' hlt hmv'
      · subst heq
        rw [hmv, Option.some.injEq] at hmv'
        exact Or.inr (hmv' ▸ hb rfl)
    · exact ⟨mv, List.mem_of_getElem? hmv, hb rfl⟩

theorem Scanned.offer {x : S} {l : Nat} (h : Scanned R p k s) :
    Scanned R p k (s.offer ops l x) := by
  unfold Scan.offer
  split_ifs
  · exact ⟨h.allWin, h.allWinOrDraw, h.hasDraw⟩
  · exact h

/-- One child proven to lose for the opponent. -/
theorem Visit.Open.valued_win (h : v.Open R) (hmv : (R.generateLegalMoves v.board)[k]? = some mv)
    (hloss : R.game.HasValue (R.doMove v.board mv) .loss) : v.Valued R .win := fun hpath =>
  .win (h hpath) (List.mem_of_getElem? hmv) hloss

theorem Scanned.forall_mem {Q : M → Prop} {n : Nat} (hn : (R.generateLegalMoves p).length ≤ n)
    (h : ∀ j mv, j < n → (R.generateLegalMoves p)[j]? = some mv → Q mv) :
    ∀ mv ∈ R.generateLegalMoves p, Q mv := by
  intro mv hmv
  obtain ⟨j, hj⟩ := List.mem_iff_getElem?.mp hmv
  have hlt : j < (R.generateLegalMoves p).length := by
    by_contra hge
    rw [List.getElem?_eq_none (not_lt.mp hge)] at hj
    cases hj
  exact h j mv (hlt.trans_le hn) hj

/-- After the loop. -/
theorem Visit.Open.proves_afterScan (h : v.Open R) (hs : Scanned R v.board k s)
    (hk : (R.generateLegalMoves v.board).length ≤ k) : (Pc.afterScan v s).Proves R := by
  unfold Pc.afterScan
  split_ifs with hwin hdraw
  · exact fun hpath => .loss (h hpath) (Scanned.forall_mem hk (hs.allWin hwin))
  · intro hpath
    rw [Bool.and_eq_true] at hdraw
    obtain ⟨mv, hmv, hd⟩ := hs.hasDraw hdraw.2
    exact .draw_of_forall (h hpath) hmv hd (Scanned.forall_mem hk (hs.allWinOrDraw hdraw.1))
  · trivial

end Scan

/-! ## One step -/

/-- The flag of a parent edge. -/
theorem Memory.childFlags_setParentFlag {path : List Edge} {e : Edge} {o o' : Outcome}
    (h : (m.setParentFlag path o).childFlags e o' = true) :
    m.childFlags e o' = true ∨ ((∃ rest, path = e :: rest) ∧ o' = o) := by
  cases path with
  | nil => exact Or.inl h
  | cons d rest =>
    change Function.update m.childFlags d (Function.update (m.childFlags d) o true) e o' = true at h
    by_cases hed : e = d
    · subst hed
      rw [Function.update_self] at h
      by_cases ho : o' = o
      · exact Or.inr ⟨⟨rest, rfl⟩, ho⟩
      · rw [Function.update_of_ne ho] at h
        exact Or.inl h
    · rw [Function.update_of_ne hed] at h
      exact Or.inl h

theorem Memory.le_setParentFlag {path : List Edge} {e : Edge} {o o' : Outcome}
    (h : m.childFlags e o' = true) : (m.setParentFlag path o).childFlags e o' = true := by
  cases path with
  | nil => exact h
  | cons d rest =>
    change Function.update m.childFlags d (Function.update (m.childFlags d) o true) e o' = true
    by_cases hed : e = d
    · subst hed
      rw [Function.update_self]
      by_cases ho : o' = o
      · rw [ho, Function.update_self]
      · rwa [Function.update_of_ne ho]
    · rwa [Function.update_of_ne hed]

/-- Where the flags of a step come from. -/
theorem Act.childFlags (h : Act R ops root i m pc m' pc') (hk : Known R root i m pc)
    (hp : pc.Proves R) {e : Edge} {o : Outcome} (ho : m'.childFlags e o = true) :
    m.childFlags e o = true ∨
      ∃ v rest, VisitOk root m v ∧ v.path = e :: rest ∧ v.Valued R o := by
  obtain ⟨hknows, -⟩ := hk
  cases h
  case resolve v o' locked =>
    obtain hold | ⟨⟨rest, hrest⟩, rfl⟩ := Memory.childFlags_setParentFlag ho
    · exact Or.inl hold
    · exact Or.inr ⟨v, rest, hknows, hrest, hp⟩
  case setParent v o' k =>
    obtain hold | ⟨⟨rest, hrest⟩, rfl⟩ := Memory.childFlags_setParentFlag ho
    · exact Or.inl hold
    · exact Or.inr ⟨v, rest, hknows.1, hrest, hp⟩
  case newArray v =>
    refine Or.inl ?_
    change (if e.1 = v.node then fun _ => false else m.childFlags e) o = true at ho
    split_ifs at ho with he
    exact ho
  all_goals exact Or.inl ho

/-- No step takes a flag away. -/
theorem Act.le_childFlags (h : Act R ops root i m pc m' pc') (hs : Sound R root m)
    (hk : Known R root i m pc) {e : Edge} {o : Outcome} (ho : m.childFlags e o = true) :
    m'.childFlags e o = true := by
  obtain ⟨hknows, -⟩ := hk
  cases h
  case resolve v o' locked => exact Memory.le_setParentFlag ho
  case setParent v o' k => exact Memory.le_setParentFlag ho
  case newArray v =>
    obtain ⟨-, hev, -⟩ := hknows
    have hne : e.1 ≠ v.node := by
      intro he
      have hblank := (hs.blank e (by rw [he, hev]; decide)).2
      rw [hblank] at ho
      cases ho
    exact (congrFun (if_neg hne) o).trans ho
  all_goals exact ho

theorem TreeOk.expanded_of_flag (hs : TreeOk R m) {e : Edge} {o : Outcome}
    (ho : m.childFlags e o = true) : m.state e.1 = .expanded := by
  by_contra hne
  rw [(hs.blank e hne).2] at ho
  cases ho

/-- A flag stays true when nothing is undone. -/
theorem flag_grow (hs : TreeOk R m) (hg : Grows m m') {e : Edge} {o : Outcome} {mv : M}
    (he : m.state e.1 = .expanded) (hmv : m.childMove e = some mv)
    (hvalue : R.game.HasValue (R.doMove (m.pos e.1) mv) o) :
    ∃ mv, m'.childMove e = some mv ∧ R.game.HasValue (R.doMove (m'.pos e.1) mv) o := by
  obtain ⟨-, -, -, hmoves⟩ := hg.expanded e.1 he
  refine ⟨mv, (hmoves e.2).1.trans hmv, ?_⟩
  rw [hg.pos_eq _ (hs.lt_of_expanded he)]
  exact hvalue

theorem FlagsOk.step (hf : FlagsOk R m) (h : Act R ops root i m pc m' pc') (hs : Sound R root m)
    (hk : Known R root i m pc) (hp : pc.Proves R) : FlagsOk R m' := by
  intro e o ho
  have hg := (h.frame hs hk).1
  obtain hold | ⟨v, rest, hv, hpath, hvalued⟩ := h.childFlags hk hp ho
  · obtain ⟨mv, hmv, hvalue⟩ := hf e o hold
    exact flag_grow hs.toTreeOk hg (hs.expanded_of_flag hold) hmv hvalue
  · -- the edge leads to the node of the visit
    obtain ⟨hchild, -⟩ := hv.parent e rest hpath
    obtain ⟨-, -, -, mv, hmv, hpos⟩ := hs.child e _ hchild
    have hexp : m.state e.1 = .expanded := (hv.path e (hpath ▸ List.mem_cons_self)).1
    refine flag_grow hs.toTreeOk hg hexp hmv ?_
    rw [← hpos, ← hv.board]
    exact hvalued (by rw [hpath]; exact List.cons_ne_nil e rest)

/-- A node keeps its place when its state does not change. -/
theorem Vetted.keep (hw : Vetted R root m) (hs : TreeOk R m) (hg : Grows m m') {a : Addr}
    (ha : root < a) (hstate : m'.state a = m.state a) :
    (m'.state a = .evaluated → R.Quiet (m'.pos a)) ∧
    (m'.state a = .expanded → R.Quiet (m'.pos a) ∨
      (R.hasMate (m'.pos a) = false ∧ R.noMove (m'.pos a) = true ∧ m'.childNum a = 0)) := by
  have hlt : m.state a ≠ .fresh → a < m.next := fun hne => by
    by_contra hge
    exact hne (hs.above a (not_lt.mp hge))
  rw [hstate]
  refine ⟨fun hev => ?_, fun hexp => ?_⟩
  · rw [hg.pos_eq a (hlt (by rw [hev]; decide))]
    exact hw.evaluated a ha hev
  · rw [hg.pos_eq a (hlt (by rw [hexp]; decide)), (hg.expanded a hexp).2.1]
    exact hw.expanded a ha hexp

theorem Vetted.step (hw : Vetted R root m) (h : Act R ops root i m pc m' pc')
    (hs : Sound R root m) (hk : Known R root i m pc) (hp : pc.Proves R) : Vetted R root m' := by
  have hg := (h.frame hs hk).1
  have hall : ∀ a, root < a → (m'.state a = .evaluated → R.Quiet (m'.pos a)) ∧
      (m'.state a = .expanded → R.Quiet (m'.pos a) ∨
        (R.hasMate (m'.pos a) = false ∧ R.noMove (m'.pos a) = true ∧ m'.childNum a = 0)) := by
    intro a ha
    obtain ⟨hknows, -⟩ := hk
    cases h
    case resolve v o locked =>
      exact hw.keep hs.toTreeOk hg ha (congrFun (SameTree.setParentFlag m v.path o.flag).state a)
    case setParent v o k =>
      exact hw.keep hs.toTreeOk hg ha (congrFun (SameTree.setParentFlag m v.path o).state a)
    case publishNoMoves v =>
      obtain ⟨hv, -, -, hnum⟩ := hknows
      by_cases hav : a = v.node
      · subst hav
        rw [Memory.state_setState_self]
        refine ⟨fun hev => (by cases hev), fun _ => Or.inr ⟨?_, ?_, hnum⟩⟩
        · exact hv.board ▸ hp.2.1
        · exact hv.board ▸ hp.2.2
      · exact hw.keep hs.toTreeOk hg ha (Memory.state_setState_of_ne hav)
    case setEvaled v valueWin =>
      by_cases hav : a = v.node
      · subst hav
        rw [Memory.state_setState_self]
        exact ⟨fun _ => hknows.1.board ▸ hp.2, fun hexp => by cases hexp⟩
      · exact hw.keep hs.toTreeOk hg ha (Memory.state_setState_of_ne hav)
    case setExpanded v =>
      obtain ⟨hv, hev, -⟩ := hknows
      by_cases hav : a = v.node
      · subst hav
        rw [Memory.state_setState_self]
        exact ⟨fun hev' => (by cases hev'), fun _ => Or.inl (hw.evaluated _ ha hev)⟩
      · exact hw.keep hs.toTreeOk hg ha (Memory.state_setState_of_ne hav)
    all_goals exact hw.keep hs.toTreeOk hg ha rfl
  exact ⟨fun a ha => (hall a ha).1, fun a ha => (hall a ha).2⟩

/-- The legal move behind an edge of the visit. -/
theorem VisitOk.move {v : Visit P} {k : Nat} (hv : VisitOk root m v) (hs : Sound R root m)
    (hexp : m.state v.node = .expanded) (hk : k < m.childNum v.node) :
    ∃ mv, (R.generateLegalMoves v.board)[k]? = some mv ∧ m.childMove (v.node, k) = some mv := by
  obtain ⟨hlen, hmoves⟩ | ⟨hzero, -⟩ := hs.built _ hexp
  · rw [hv.board]
    have hlt : k < (R.generateLegalMoves (m.pos v.node)).length := hlen ▸ hk
    refine ⟨_, List.getElem?_eq_getElem hlt, ?_⟩
    rw [hmoves k hk, List.getElem?_eq_getElem hlt]
  · omega

/-- A flag seen on an edge of the visit. -/
theorem VisitOk.value_of_flag {v : Visit P} {k : Nat} {o : Outcome} {mv : M}
    (hv : VisitOk root m v) (hf : FlagsOk R m) (hmv : m.childMove (v.node, k) = some mv)
    (ho : m.childFlags (v.node, k) o = true) : R.game.HasValue (R.doMove v.board mv) o := by
  obtain ⟨mv', hmv', hvalue⟩ := hf _ o ho
  rw [hmv, Option.some.injEq] at hmv'
  rw [hmv', hv.board]
  exact hvalue

theorem VisitOk.root_lt {v : Visit P} (hv : VisitOk root m v) (hpath : v.path ≠ []) :
    root < v.node := by
  obtain ⟨e, rest, he⟩ := List.exists_cons_of_ne_nil hpath
  exact (hv.parent e rest he).2

/-- A published node without children. -/
theorem VisitOk.valued_loss {v : Visit P} (hv : VisitOk root m v) (hs : Sound R root m)
    (hw : Vetted R root m) (hexp : m.state v.node = .expanded) (hp : v.Passed R)
    (hzero : m.childNum v.node = 0) : v.Valued R .loss := by
  intro hpath
  have hroot := hv.root_lt hpath
  obtain hq | ⟨hmate, hno, -⟩ := hw.expanded _ hroot hexp
  · -- without a verdict: all of no moves win for the opponent
    have hgoes := hp.open_of_quiet (hv.board ▸ hq) hpath
    refine .loss hgoes fun mv hmv => ?_
    obtain ⟨hlen, -⟩ | ⟨-, hno⟩ := hs.built _ hexp
    · have hnil : R.generateLegalMoves v.board = [] := by
        rw [hv.board, ← List.length_eq_zero_iff, ← hlen, hzero]
      have hmv' : mv ∈ R.generateLegalMoves v.board := hmv
      rw [hnil] at hmv'
      exact absurd hmv' List.not_mem_nil
    · rw [hq.2] at hno
      cases hno
  · exact hp.valued_loss (hv.board ▸ hmate) (hv.board ▸ hno) hpath

/-- A published node with children. -/
theorem VisitOk.open_of_children {v : Visit P} (hv : VisitOk root m v) (hw : Vetted R root m)
    (hexp : m.state v.node = .expanded) (hp : v.Passed R) (hne : m.childNum v.node ≠ 0) :
    v.Open R := by
  intro hpath
  obtain hq | ⟨-, -, hzero⟩ := hw.expanded _ (hv.root_lt hpath) hexp
  · exact hp.open_of_quiet (hv.board ▸ hq) hpath
  · exact absurd hzero hne

theorem Pc.Proves.enter {v : Visit P} : (Pc.enter v : Pc P S).Proves R := by
  unfold Pc.enter
  split_ifs <;> trivial

theorem Pc.Proves.afterProven {v : Visit P} {o : Outcome} :
    (Pc.afterProven v o : Pc P S).Proves R := by
  cases o <;> trivial

/-- What the thread of a step has found out after it. -/
theorem Act.proves (h : Act R ops root i m pc m' pc') (hs : Sound R root m)
    (hk : Known R root i m pc) (hf : FlagsOk R m) (hw : Vetted R root m) (hp : pc.Proves R) :
    pc'.Proves R := by
  obtain ⟨hknows, -⟩ := hk
  cases h
  case start => exact .enter
  case proven v e rest o path =>
    split_ifs
    · trivial
    · exact .afterProven
  case adjudicated v o verdict =>
    intro hpath
    rw [List.isEmpty_eq_false_iff.mpr hpath] at verdict
    exact Rules.hasValue_of_adjudicate verdict
  case notAdjudicated v verdict =>
    intro hpath
    rwa [List.isEmpty_eq_false_iff.mpr hpath] at verdict
  case resolve v o locked => cases locked <;> trivial
  case checkEvaled v => split_ifs <;> exact hp
  case lockEval v free => exact hp
  case recheckEvaled v => split_ifs <;> exact hp
  case leafMate v mate => exact hp.valued_win mate
  case leafNoMove v mate noMove => exact ⟨hp, mate, noMove⟩
  case leafOpen v mate noMove => exact ⟨hp, mate, noMove⟩
  case noMoves v => exact hp
  case publishNoMoves v => exact hp.1.valued_loss hp.2.1 hp.2.2
  case evaluateLeaf v valueWin => exact hp
  case setEvaled v valueWin => trivial
  case unlock v next =>
    cases next
    · exact hp
    · exact hp
    · trivial
  case checkExpanded v => split_ifs <;> exact hp
  case lockExpand v free => exact hp
  case recheckExpanded v => split_ifs <;> exact hp
  case expandNode v => split_ifs <;> exact hp
  case newArray v => exact hp
  case writeMove v k => split_ifs <;> exact hp
  case writePrior v k x => split_ifs <;> exact hp
  case clearVisited v => exact hp
  case setExpanded v => exact hp
  case readChildNum v =>
    obtain ⟨hv, hexp⟩ := hknows
    split_ifs with hzero
    · exact hv.valued_loss hs hw hexp hp hzero
    · exact hv.open_of_children hw hexp hp hzero
  case loadSum v => exact hp
  case loadSumWin v sum => exact hp
  case loadVisited v sum sumWin => exact ⟨hp, .init⟩
  case scan v k s more =>
    obtain ⟨hv, hexp, -⟩ := hknows
    obtain ⟨hopen, hscan⟩ := hp
    split_ifs with hloss
    · obtain ⟨mv, hmv, hmove⟩ := hv.move hs hexp more
      exact hopen.valued_win hmv (hv.value_of_flag hf hmove hloss)
    · exact ⟨hopen, hscan⟩
  case scanned v k s done =>
    obtain ⟨hv, hexp, hbest⟩ := hknows
    obtain ⟨hopen, hscan⟩ := hp
    refine hopen.proves_afterScan hscan ?_
    obtain ⟨hlen, -⟩ | ⟨hzero, -⟩ := hs.built _ hexp
    · rw [hv.board, ← hlen]
      exact not_lt.mp done
    · omega
  case scanWin v k s =>
    obtain ⟨hv, hexp, -, hlt⟩ := hknows
    obtain ⟨hopen, hscan⟩ := hp
    split_ifs with hwin
    · obtain ⟨mv, hmv, hmove⟩ := hv.move hs hexp hlt
      exact ⟨hopen, hscan.skip hmv (hv.value_of_flag hf hmove hwin)⟩
    · exact ⟨hopen, hscan.notWin, rfl⟩
  case scanDraw v k s =>
    obtain ⟨hv, hexp, -, hlt⟩ := hknows
    obtain ⟨hopen, hscan, hnot⟩ := hp
    obtain ⟨mv, hmv, hmove⟩ := hv.move hs hexp hlt
    exact ⟨hopen, hscan.seeDraw hnot hmv fun hdraw => hv.value_of_flag hf hmove hdraw⟩
  case scanCount v k s =>
    split_ifs
    · exact ⟨hp.1, hp.2.offer⟩
    · exact hp
  case scanChildWin v k s n => exact ⟨hp.1, hp.2.offer⟩
  case validate p e todo => split_ifs <;> trivial
  case updated p x => split_ifs <;> trivial
  case checkNode a => split_ifs <;> trivial
  all_goals trivial

/-! ## Searches -/

section Searches

variable {priors : Nat → Num} {visited : Num}

/-- The flags of a tree on which no thread is at work. -/
structure FlagsAtRest (R : Rules P M) (root : Addr) (m : Memory ι P M) : Prop where
  flags : FlagsOk R m
  vetted : Vetted R root m

theorem FlagsAtRest.expandRoot (h : FlagsAtRest R root m) :
    FlagsAtRest R root (m.expandRoot R root priors visited) := by
  have hchildren : FlagsAtRest R root (m.expandChildren R root) := by
    unfold Memory.expandChildren
    split_ifs with hexp
    · exact h
    · have honly : OnlyAt root m (m.setChildren root (R.generateLegalMoves (m.pos root))) :=
        .setChildren
      refine ⟨fun e o ho => ?_, fun a ha hev => ?_, fun a ha hex => ?_⟩
      · have he : e.1 ≠ root := by
          intro he
          rw [show e = (root, e.2) from Prod.ext he rfl] at ho
          exact absurd ho (by rw [show (m.setChildren root _).childFlags (root, e.2) = _ from
            Memory.childFlags_newArray (a := root)]; exact Bool.false_ne_true)
        obtain ⟨hmove, -, hflags, -⟩ := honly.edge e he
        rw [hflags] at ho
        rw [hmove, honly.pos]
        exact h.flags e o ho
      · rw [(honly.node a ha.ne').1] at hev
        rw [honly.pos]
        exact h.vetted.evaluated a ha hev
      · rw [(honly.node a ha.ne').1] at hex
        rw [honly.pos, (honly.node a ha.ne').2.1]
        exact h.vetted.expanded a ha hex
  exact ⟨hchildren.flags, hchildren.vetted.evaluated, hchildren.vetted.expanded⟩

variable [DecidableEq ι] {c : Threads.Config ι (Memory ι P M) (Pc P S)}

theorem proves_of_reach (hm : Grown R ops m root) (hrest : FlagsAtRest R root m)
    (hrun : (searchers R ops root).Reach (startSearch R m root priors visited) c) :
    FlagsAtRest R root c.shared ∧ ∀ i, (c.own i).Proves R := by
  refine hrun.invariant (I := fun c => FlagsAtRest R root c.shared ∧ ∀ i, (c.own i).Proves R) ?_ ?_
  · exact ⟨hrest.expandRoot, fun _ => trivial⟩
  · intro i c c' hreach hc hstep
    obtain ⟨s, t, hact, rfl⟩ := hstep
    obtain ⟨hs, hknown⟩ := known_of_grown hm hreach
    obtain ⟨⟨hf, hw⟩, hp⟩ := hc
    refine ⟨⟨hf.step hact hs (hknown i) (hp i), hw.step hact hs (hknown i) (hp i)⟩, fun j => ?_⟩
    by_cases hj : j = i
    · subst hj
      rw [Threads.Config.own_set_self]
      exact Act.proves hact hs (hknown j) hf hw (hp j)
    · rw [Threads.Config.own_set_of_ne hj]
      exact hp j

theorem flagsAtRest_of_grown (hm : Grown R ops m root) : FlagsAtRest R root m := by
  induction hm with
  | new p => exact ⟨fun e o ho => (by cases ho), fun a _ h => (by cases h), fun a _ h => (by cases h)⟩
  | search grown run _ ih => exact (proves_of_reach grown ih run).1
  | toChild grown child ih =>
    obtain ⟨ht, -⟩ := treeOk_of_grown grown
    have hlt := (ht.child _ _ child).1
    exact ⟨ih.flags, fun a ha => ih.vetted.evaluated a (hlt.trans ha), fun a ha =>
      ih.vetted.expanded a (hlt.trans ha)⟩
  | toNewChild grown expanded bound move noChild ih =>
    obtain ⟨ht, -⟩ := treeOk_of_grown grown
    refine ⟨fun e o ho => ?_, fun a ha h => ?_, fun a ha h => ?_⟩
    · obtain ⟨mv, hmv, hvalue⟩ := ih.flags e o ho
      exact flag_grow ht (.publishChild noChild) (ht.expanded_of_flag ho) hmv hvalue
    · cases (ht.above a ha.le).symm.trans h
    · cases (ht.above a ha.le).symm.trans h

/-- Proven edges: a flag is the value of the position to which the edge leads, no edge has two, and no
step takes one away. -/
structure ProvenEdges (R : Rules P M) (ops : PuctOps S) (root : Addr)
    (c : Threads.Config ι (Memory ι P M) (Pc P S)) : Prop where
  value : ∀ e o, c.shared.childFlags e o = true → ∃ mv, c.shared.childMove e = some mv ∧
    R.game.HasValue (R.doMove (c.shared.pos e.1) mv) o
  single : ∀ e o o', c.shared.childFlags e o = true → c.shared.childFlags e o' = true → o = o'
  added : ∀ i c', (searchers R ops root).Step i c c' → ∀ e o, c.shared.childFlags e o = true →
    c'.shared.childFlags e o = true

end Searches

end Shogi.Mcts
