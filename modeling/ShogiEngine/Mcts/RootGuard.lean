import ShogiEngine.Mate.ShallowVerdict

/-!
# The root guard

`SelectBestChild` and `RejectRootMates` of `mcts/uct_search.cc`: before a move is played, the moves that
the search likes best are probed for a mate by the opponent, one after the other, until one passes.

## Main definitions

- `RootChild`: the fields of `child_node_t` that the two functions read
- `selectBestChild`, `rejectRootMates`: the source's functions

## Main results

- `selectBestChild_wellPicked`: proven wins first, proven losses last
- `rejectRootMates_guards`: the move that is picked behind the guard has passed its probe
-/

namespace Shogi.Mcts

open ShallowMate

/-- What the functions ask of a `float`: `>` and the constant `-1`. -/
structure PriorOps (F : Type) where
  gt : F → F → Bool
  minusOne : F

/-- `kWin`. -/
def kWin : BitVec 8 := 1#8

/-- `kLose`. -/
def kLose : BitVec 8 := 2#8

/-- The fields of `child_node_t` that matter here. -/
structure RootChild (F : Type) where
  move : Move
  nnrate : F
  moveCount : Int
  flags : BitVec 8
  deriving DecidableEq

namespace RootChild

variable {F : Type} (c : RootChild F)

/-- `IsWin`: the opponent wins behind the edge. -/
def isWin : Bool := c.flags &&& kWin ≠ 0#8

/-- `IsLose`: the opponent loses behind the edge. -/
def isLose : Bool := c.flags &&& kLose ≠ 0#8

/-- `SetWin`. -/
def setWin : RootChild F := { c with flags := c.flags ||| kWin }

end RootChild

/-- `std::numeric_limits<int>::min()`. -/
def intMin : Int := -2147483648

section Source

variable {F : Type} (fp : PriorOps F) (env : Env)

/-- The variables of the loop of `SelectBestChild`. -/
structure Best (F : Type) where
  best : Nat
  bestVisits : Int
  bestPrior : F

/-- The loop of `SelectBestChild`, from child `i` on. -/
def selectFrom : List (RootChild F) → Nat → Best F → Nat
  | [], _, s => s.best
  | c :: rest, i, s =>
    if c.isLose then i
    else if c.isWin then selectFrom rest (i + 1) s
    else if s.bestVisits < c.moveCount ∨ c.moveCount = s.bestVisits ∧ fp.gt c.nnrate s.bestPrior = true then
      selectFrom rest (i + 1) ⟨i, c.moveCount, c.nnrate⟩
    else selectFrom rest (i + 1) s

/-- `SelectBestChild`. -/
def selectBestChild (children : List (RootChild F)) : Nat :=
  selectFrom fp children 0 ⟨0, intMin, fp.minusOne⟩

/-- What `RejectRootMates` works on: the children of the root, the board with the limits of the probes,
and `root_guard_cancelled_`. `probes` records the answers, newest first. -/
structure Guard (F : Type) where
  children : List (RootChild F)
  root : ProbeState
  cancelled : Bool
  probes : List (Nat × ProbeResult)

/-- The probe of a child: its move is played, `ProbeMateWithin` asked, and the move taken back. -/
def probeChild (depth : Int) (m : Move) : Probe ProbeResult := do
  let undo ← doMove m none
  let probe ← env.probeMateWithin depth
  undoMove m undo
  return probe

/-- The guard behind a probe of child `idx`. -/
def Guard.probed (s : Guard F) (idx : Nat) (probe : ProbeResult × ProbeState) : Guard F :=
  { s with root := probe.2, probes := (idx, probe.1) :: s.probes }

/-- One pass of the loop, and whether the loop goes on. -/
def guardPass (depth : Int) (s : Guard F) : Guard F × Bool :=
  let idx := selectBestChild fp s.children
  (s.children[idx]?).elim (s, false) fun child =>
    if child.isLose || child.isWin then (s, false)
    else
      let probe := probeChild env depth child.move s.root
      let s := s.probed idx probe
      if probe.1 = .cancelled then ({ s with cancelled := true }, false)
      else if probe.1 = .noMate then (s, false)
      else ({ s with children := s.children.modify idx RootChild.setWin }, true)

/-- The loop, with the attempts that are left. -/
def guardLoop (depth : Int) : Nat → Guard F → Guard F
  | 0, s => s
  | n + 1, s =>
    let r := guardPass fp env depth s
    if r.2 then guardLoop depth n r.1 else r.1

/-- `RejectRootMates`. -/
def rejectRootMates (depth : Int) (s : Guard F) : Guard F :=
  if depth ≤ 0 ∨ s.children.length = 0 then s else guardLoop fp env depth s.children.length s

end Source

/-! ## The selection -/

section Select

variable {F : Type} (fp : PriorOps F) {children rest : List (RootChild F)} {c : RootChild F} {i : Nat} {s : Best F}

/-- Neither player wins behind the edge. -/
def RootChild.unproven (c : RootChild F) : Bool := !c.isLose && !c.isWin

/-- The loop ends at the first edge behind which the opponent loses. -/
theorem selectFrom_of_lose (h : ∃ c ∈ children, c.isLose = true) :
    ∃ j c, selectFrom fp children i s = i + j ∧ children[j]? = some c ∧ c.isLose = true := by
  induction children generalizing i s with
  | nil =>
    obtain ⟨c, hc, -⟩ := h
    exact absurd hc List.not_mem_nil
  | cons a rest ih =>
    by_cases ha : a.isLose = true
    · exact ⟨0, a, if_pos ha, rfl, ha⟩
    · have hrest : ∃ c ∈ rest, c.isLose = true := by
        obtain ⟨c, hc, hlose⟩ := h
        rcases List.mem_cons.mp hc with rfl | hc
        · exact absurd hlose ha
        · exact ⟨c, hc, hlose⟩
      have hstep : ∃ s', selectFrom fp (a :: rest) i s = selectFrom fp rest (i + 1) s' := by
        rw [selectFrom, if_neg ha]
        split
        · exact ⟨s, rfl⟩
        · split
          · exact ⟨_, rfl⟩
          · exact ⟨s, rfl⟩
      obtain ⟨s', hstep⟩ := hstep
      obtain ⟨j, c, hj, hget, hlose⟩ := ih (i := i + 1) (s := s') hrest
      exact ⟨j + 1, c, by omega, hget, hlose⟩

/-- Without such an edge the loop keeps its best edge or comes to one that is not proven. -/
theorem selectFrom_of_not_lose (h : ∀ c ∈ children, c.isLose = false) :
    selectFrom fp children i s = s.best ∨
      ∃ j c, selectFrom fp children i s = i + j ∧ children[j]? = some c ∧ c.unproven = true := by
  induction children generalizing i s with
  | nil => exact Or.inl rfl
  | cons a rest ih =>
    have ha := h a List.mem_cons_self
    have hrest : ∀ c ∈ rest, c.isLose = false := fun c hc => h c (List.mem_cons_of_mem _ hc)
    rw [selectFrom, if_neg (Bool.eq_false_iff.mp ha)]
    -- a later edge is one place further from the front
    have hlater : ∀ s' : Best F, selectFrom fp rest (i + 1) s' = s'.best ∨
        ∃ j c, selectFrom fp rest (i + 1) s' = i + j ∧ (a :: rest)[j]? = some c ∧ c.unproven = true := by
      intro s'
      refine (ih hrest).imp_right ?_
      rintro ⟨j, c, hj, hget, hopen⟩
      exact ⟨j + 1, c, by omega, hget, hopen⟩
    split
    · exact hlater s
    next hwin =>
      split
      · refine Or.inr ((hlater _).elim (fun hbest => ⟨0, a, hbest, rfl, ?_⟩) id)
        rw [RootChild.unproven, ha, Bool.eq_false_iff.mpr hwin]
        rfl
      · exact hlater s

/-- An edge that is not proven is preferred to the initial value. -/
theorem selectFrom_of_unproven (h : ∀ c ∈ children, c.isLose = false) (hbest : s.bestVisits = intMin)
    (hvisits : ∀ c ∈ children, intMin < c.moveCount) (hopen : ∃ c ∈ children, c.unproven = true) :
    ∃ j c, selectFrom fp children i s = i + j ∧ children[j]? = some c ∧ c.unproven = true := by
  induction children generalizing i s with
  | nil =>
    obtain ⟨c, hc, -⟩ := hopen
    exact absurd hc List.not_mem_nil
  | cons a rest ih =>
    have ha := h a List.mem_cons_self
    have hrest : ∀ c ∈ rest, c.isLose = false := fun c hc => h c (List.mem_cons_of_mem _ hc)
    rw [selectFrom, if_neg (Bool.eq_false_iff.mp ha)]
    by_cases hwin : a.isWin = true
    · have hopen' : ∃ c ∈ rest, c.unproven = true := by
        obtain ⟨c, hc, hun⟩ := hopen
        rcases List.mem_cons.mp hc with rfl | hc
        · rw [RootChild.unproven, hwin, Bool.not_true, Bool.and_false] at hun
          exact absurd hun Bool.false_ne_true
        · exact ⟨c, hc, hun⟩
      rw [if_pos hwin]
      obtain ⟨j, c, hj, hget, hun⟩ := ih (i := i + 1) hrest hbest
        (fun c hc => hvisits c (List.mem_cons_of_mem _ hc)) hopen'
      exact ⟨j + 1, c, by omega, hget, hun⟩
    · have hun : a.unproven = true := by
        rw [RootChild.unproven, ha, Bool.eq_false_iff.mpr hwin]
        rfl
      rw [if_neg hwin, if_pos (Or.inl (hbest ▸ hvisits a List.mem_cons_self))]
      rcases selectFrom_of_not_lose fp (i := i + 1) (s := ⟨i, a.moveCount, a.nnrate⟩) hrest with
        hfirst | ⟨j, c, hj, hget, hun'⟩
      · exact ⟨0, a, hfirst, rfl, hun⟩
      · exact ⟨j + 1, c, by omega, hget, hun'⟩

/-- A proven win is picked if there is one. -/
theorem selectBestChild_of_lose (h : ∃ c ∈ children, c.isLose = true) :
    ∃ c, children[selectBestChild fp children]? = some c ∧ c.isLose = true := by
  obtain ⟨j, c, hj, hget, hlose⟩ := selectFrom_of_lose fp (i := 0) (s := ⟨0, intMin, fp.minusOne⟩) h
  rw [Nat.zero_add] at hj
  exact ⟨c, by rw [selectBestChild, hj, hget], hlose⟩

/-- Else an edge that is not proven. -/
theorem selectBestChild_of_unproven (h : ∀ c ∈ children, c.isLose = false)
    (hvisits : ∀ c ∈ children, intMin < c.moveCount) (hopen : ∃ c ∈ children, c.unproven = true) :
    ∃ c, children[selectBestChild fp children]? = some c ∧ c.unproven = true := by
  obtain ⟨j, c, hj, hget, hun⟩ := selectFrom_of_unproven fp (i := 0)
    (s := ⟨0, intMin, fp.minusOne⟩) h rfl hvisits hopen
  rw [Nat.zero_add] at hj
  exact ⟨c, by rw [selectBestChild, hj, hget], hun⟩

theorem exists_selectBestChild (h : children ≠ []) : ∃ c, children[selectBestChild fp children]? = some c := by
  by_cases hlose : ∃ c ∈ children, c.isLose = true
  · exact (selectBestChild_of_lose fp hlose).imp fun c hc => hc.1
  · have hnone : ∀ c ∈ children, c.isLose = false :=
      fun c hc => Bool.eq_false_iff.mpr fun hyes => hlose ⟨c, hc, hyes⟩
    rcases selectFrom_of_not_lose fp (i := 0) (s := ⟨0, intMin, fp.minusOne⟩) hnone with
      hbest | ⟨j, c, hj, hget, -⟩
    · obtain ⟨a, rest, rfl⟩ := List.exists_cons_of_ne_nil h
      exact ⟨a, by rw [selectBestChild, hbest]; rfl⟩
    · rw [Nat.zero_add] at hj
      exact ⟨c, by rw [selectBestChild, hj, hget]⟩

/-- What is picked: a proven win if there is one, else an edge that is not proven if there is one. -/
structure WellPicked (children : List (RootChild F)) (c : RootChild F) : Prop where
  lose : (∃ c ∈ children, c.isLose = true) → c.isLose = true
  unproven : (∃ c ∈ children, c.unproven = true) → c.isLose = true ∨ c.unproven = true

theorem selectBestChild_wellPicked (h : children ≠ []) (hvisits : ∀ c ∈ children, intMin < c.moveCount) :
    ∃ c, children[selectBestChild fp children]? = some c ∧ WellPicked children c := by
  obtain ⟨c, hget⟩ := exists_selectBestChild fp h
  refine ⟨c, hget, ?_, ?_⟩
  · intro hlose
    obtain ⟨c', hget', hc'⟩ := selectBestChild_of_lose fp hlose
    rw [Option.some.inj (hget.symm.trans hget')]
    exact hc'
  · intro hopen
    by_cases hlose : ∃ c ∈ children, c.isLose = true
    · obtain ⟨c', hget', hc'⟩ := selectBestChild_of_lose fp hlose
      rw [Option.some.inj (hget.symm.trans hget')]
      exact Or.inl hc'
    · have hnone : ∀ c ∈ children, c.isLose = false :=
        fun c hc => Bool.eq_false_iff.mpr fun hyes => hlose ⟨c, hc, hyes⟩
      obtain ⟨c', hget', hc'⟩ := selectBestChild_of_unproven fp hnone hvisits hopen
      rw [Option.some.inj (hget.symm.trans hget')]
      exact Or.inr hc'

/-- If a proven loss is picked, all edges are proven losses. -/
theorem WellPicked.forall_isWin (h : WellPicked children c) (hlose : c.isLose = false)
    (hwin : c.isWin = true) : ∀ c ∈ children, c.isWin = true := by
  intro a ha
  by_contra hnot
  by_cases halose : a.isLose = true
  · exact Bool.noConfusion (hlose.symm.trans (h.lose ⟨a, ha, halose⟩))
  · have hun : a.unproven = true := by
      rw [RootChild.unproven, Bool.eq_false_iff.mpr halose, Bool.eq_false_iff.mpr hnot]
      rfl
    rcases h.unproven ⟨a, ha, hun⟩ with hyes | hyes
    · exact Bool.noConfusion (hlose.symm.trans hyes)
    · rw [RootChild.unproven, hwin, Bool.not_true, Bool.and_false] at hyes
      exact Bool.false_ne_true hyes

end Select

/-! ## The loop -/

section Loop

variable {F : Type} (fp : PriorOps F) (env : Env) (depth : Int) {s : Guard F} {child : RootChild F}
  {b : ShogiBoard} {m : Move}

/-- The probe of a move puts the board back, and answers the verdict unless it is cancelled. -/
theorem probeChild_spec (hb : b.Playable) (hm : b.position.Legal m) (l : SearchLimits) :
    (probeChild env depth m ⟨b, l⟩).2.board = b ∧
      ((probeChild env depth m ⟨b, l⟩).1 = .cancelled ∨ (probeChild env depth m ⟨b, l⟩).1 =
        if env.verdict depth (b.doMove m) then .mate else .noMate) := by
  have hlegal := hb.legal_iff.mpr hm
  have hnext : (b.doMoveInternal m true none).1.Playable := hb.doMoveInternal hlegal
  obtain ⟨hboard, -, hanswer⟩ := Env.probeMateWithin_eq hnext depth l
  have hrun : probeChild env depth m ⟨b, l⟩ =
      ((env.probeMateWithin depth ⟨(b.doMoveInternal m true none).1, l⟩).1,
        { (env.probeMateWithin depth ⟨(b.doMoveInternal m true none).1, l⟩).2 with
          board := (env.probeMateWithin depth ⟨(b.doMoveInternal m true none).1, l⟩).2.board.undoMove m
            (b.doMoveInternal m true none).2 }) := rfl
  rw [hrun]
  constructor
  · dsimp only
    rw [hboard]
    exact hb.undoMove hlegal
  · dsimp only
    rw [hanswer]
    split
    · exact Or.inl rfl
    · exact Or.inr rfl

/-- What the guard starts from and keeps: a playable board, legal moves, visit counts. -/
structure Ready (s : Guard F) : Prop where
  playable : s.root.board.Playable
  legal : ∀ c ∈ s.children, s.root.board.position.Legal c.move
  visits : ∀ c ∈ s.children, intMin < c.moveCount

/-- The move that is picked has passed its probe, or no probe was needed. -/
def Passed (fp : PriorOps F) (env : Env) (depth : Int) (s : Guard F) : Prop :=
  ∃ c, s.children[selectBestChild fp s.children]? = some c ∧
    (c.isLose = true ∨
      (selectBestChild fp s.children, ProbeResult.noMate) ∈ s.probes ∧
        env.verdict depth (s.root.board.doMove c.move) = false ∨
      ∀ c ∈ s.children, c.isWin = true)

theorem isWin_setWin (c : RootChild F) : c.setWin.isWin = true := by
  have hflags : (c.flags ||| kWin) &&& kWin = kWin := by
    rw [kWin]
    ext i hi
    interval_cases i <;> simp
  rw [RootChild.isWin, RootChild.setWin, hflags]
  rfl

/-- One element fewer passes a test if one that did is replaced by one that does not. -/
theorem countP_modify {α : Type} {l : List α} {i : Nat} {a : α} {f : α → α} {p : α → Bool}
    (h : l[i]? = some a) (ha : p a = true) (hf : p (f a) = false) :
    (l.modify i f).countP p + 1 = l.countP p := by
  induction l generalizing i with
  | nil => cases h
  | cons x l ih =>
    cases i with
    | zero =>
      cases h
      rw [List.modify_zero_cons, List.countP_cons_of_neg (Bool.eq_false_iff.mp hf), List.countP_cons_of_pos ha]
    | succ i =>
      have hrest := ih (i := i) h
      rw [List.modify_succ_cons, List.countP_cons, List.countP_cons]
      omega

theorem forall_modify {α : Type} {l : List α} {i : Nat} {f : α → α} {P : α → Prop} (h : ∀ a ∈ l, P a)
    (hf : ∀ a, P a → P (f a)) : ∀ a ∈ l.modify i f, P a := by
  intro a ha
  obtain ⟨j, hj⟩ := List.mem_iff_getElem?.mp ha
  rw [List.getElem?_modify] at hj
  obtain ⟨x, hx, rfl⟩ := Option.map_eq_some_iff.mp hj
  have hmem := h x (List.mem_of_getElem? hx)
  split
  · exact hf x hmem
  · exact hmem

theorem not_unproven_setWin (c : RootChild F) : c.setWin.unproven = false := by
  rw [RootChild.unproven, isWin_setWin, Bool.not_true, Bool.and_false]

/-- An edge that is neither a proven win nor open is a proven loss. -/
theorem isWin_of_not (hlose : child.isLose = false) (hopen : child.unproven = false) : child.isWin = true := by
  rw [RootChild.unproven, hlose, Bool.not_false, Bool.true_and, Bool.not_eq_false'] at hopen
  exact hopen

/-- A proven edge needs no probe. -/
theorem passed_of_proven (hs : Ready s) (hget : s.children[selectBestChild fp s.children]? = some child)
    (hproven : child.unproven = false) : Passed fp env depth s := by
  have hne : s.children ≠ [] := List.ne_nil_of_mem (List.mem_of_getElem? hget)
  obtain ⟨c, hc, hpicked⟩ := selectBestChild_wellPicked fp hne hs.visits
  obtain rfl := Option.some.inj (hget.symm.trans hc)
  refine ⟨child, hget, ?_⟩
  by_cases hlose : child.isLose = true
  · exact Or.inl hlose
  · have hlose := Bool.eq_false_iff.mpr hlose
    exact Or.inr (Or.inr (hpicked.forall_isWin hlose (isWin_of_not hlose hproven)))

/-- One pass of the loop. -/
theorem guardPass_spec (hs : Ready s) (hne : s.children ≠ []) :
    Ready (guardPass fp env depth s).1 ∧ (guardPass fp env depth s).1.root.board = s.root.board ∧
      (guardPass fp env depth s).1.children.length = s.children.length ∧
      (guardPass fp env depth s).1.probes.length ≤ s.probes.length + 1 ∧
      ((guardPass fp env depth s).2 = true ∧
          (guardPass fp env depth s).1.children.countP RootChild.unproven + 1 =
            s.children.countP RootChild.unproven ∨
        (guardPass fp env depth s).2 = false ∧ ((guardPass fp env depth s).1.cancelled = true ∨
          Passed fp env depth (guardPass fp env depth s).1)) := by
  obtain ⟨child, hget⟩ := exists_selectBestChild fp hne
  have hmem := List.mem_of_getElem? hget
  by_cases hproven : child.unproven = true
  · have hnot : (child.isLose || child.isWin) = false := by
      rw [RootChild.unproven, Bool.and_eq_true, Bool.not_eq_true', Bool.not_eq_true'] at hproven
      rw [hproven.1, hproven.2]
      rfl
    obtain ⟨hboard, hanswer⟩ := probeChild_spec env depth hs.playable
      (hs.legal child hmem) s.root.limits
    obtain ⟨probe, hprobe⟩ : ∃ r, probeChild env depth child.move s.root = r := ⟨_, rfl⟩
    have hboard : probe.2.board = s.root.board := hprobe ▸ hboard
    have hanswer : probe.1 = .cancelled ∨
        probe.1 = if env.verdict depth (s.root.board.doMove child.move) then .mate else .noMate :=
      hprobe ▸ hanswer
    have hready : Ready (s.probed (selectBestChild fp s.children) probe) := by
      refine ⟨?_, ?_, hs.visits⟩
      · exact hboard.symm ▸ hs.playable
      · exact hboard.symm ▸ hs.legal
    rw [guardPass]
    dsimp only
    rw [hget, Option.elim_some, if_neg (Bool.eq_false_iff.mp hnot), hprobe]
    split
    next =>
      exact ⟨⟨hready.playable, hready.legal, hready.visits⟩, hboard, rfl, le_rfl, Or.inr ⟨rfl, Or.inl rfl⟩⟩
    next hran =>
      have hverdict := hanswer.resolve_left hran
      split
      next hno =>
        refine ⟨hready, hboard, rfl, le_rfl, Or.inr ⟨rfl, Or.inr ⟨child, hget, Or.inr (Or.inl ⟨?_, ?_⟩)⟩⟩⟩
        · rw [← hno]
          exact List.mem_cons_self
        · show env.verdict depth (probe.2.board.doMove child.move) = false
          rw [hboard]
          by_contra hmate
          rw [hno, if_pos (Bool.not_eq_false _ ▸ hmate)] at hverdict
          cases hverdict
      next hmate =>
        refine ⟨⟨hready.playable, ?_, ?_⟩, hboard, List.length_modify .., le_rfl, Or.inl ⟨rfl, ?_⟩⟩
        · exact forall_modify hready.legal fun _ h => h
        · exact forall_modify hready.visits fun _ h => h
        · exact countP_modify hget hproven (not_unproven_setWin child)
  · have hproven := Bool.eq_false_iff.mpr hproven
    have hpass : guardPass fp env depth s = (s, false) := by
      have hyes : (child.isLose || child.isWin) = true := by
        rw [RootChild.unproven] at hproven
        revert hproven
        cases child.isLose <;> cases child.isWin <;> decide
      rw [guardPass]
      dsimp only
      rw [hget, Option.elim_some, if_pos hyes]
    rw [hpass]
    exact ⟨hs, rfl, rfl, Nat.le_succ _, Or.inr ⟨rfl, Or.inr (passed_of_proven fp env depth hs hget hproven)⟩⟩

/-- The loop, by the number of edges that are not proven. -/
theorem guardLoop_spec {n : Nat} (hs : Ready s) (hne : s.children ≠ [])
    (hn : s.children.countP RootChild.unproven ≤ n) :
    (guardLoop fp env depth n s).root.board = s.root.board ∧
      (guardLoop fp env depth n s).probes.length ≤ s.probes.length + n ∧
      ((guardLoop fp env depth n s).cancelled = true ∨ Passed fp env depth (guardLoop fp env depth n s)) := by
  induction n generalizing s with
  | zero =>
    -- nothing is left to probe
    obtain ⟨child, hget⟩ := exists_selectBestChild fp hne
    have hproven : child.unproven = false := by
      have hzero := List.countP_eq_zero.mp (Nat.le_zero.mp hn) child (List.mem_of_getElem? hget)
      exact Bool.eq_false_iff.mpr hzero
    exact ⟨rfl, le_rfl, Or.inr (passed_of_proven fp env depth hs hget hproven)⟩
  | succ n ih =>
    obtain ⟨hready, hboard, hlength, hprobes, hend⟩ := guardPass_spec fp env
      depth hs hne
    rw [guardLoop]
    rcases hend with ⟨hgo, hcount⟩ | ⟨hstop, hpassed⟩
    · rw [if_pos hgo]
      have hne' : (guardPass fp env depth s).1.children ≠ [] := by
        rw [← List.length_pos_iff, hlength, List.length_pos_iff]
        exact hne
      obtain ⟨hboard', hprobes', hpassed⟩ := ih hready hne' (by omega)
      exact ⟨hboard'.trans hboard, by omega, hpassed⟩
    · rw [if_neg (Bool.eq_false_iff.mp hstop)]
      exact ⟨hboard, by omega, hpassed⟩

end Loop

/-- The selection prefers proven wins and avoids proven losses. The guard probes no more moves than the
root has and puts the board back, and unless it was cancelled the move that is picked behind it is a
proven win, or has just been probed and allows no mate within the depth, or all moves are proven losses. -/
theorem rejectRootMates_guards {F : Type} (fp : PriorOps F) (env : Env) (depth : Int) (s : Guard F)
    (hdepth : 0 < depth) (hs : Ready s) (hne : s.children ≠ []) :
    (∃ c, s.children[selectBestChild fp s.children]? = some c ∧ WellPicked s.children c) ∧
      (rejectRootMates fp env depth s).root.board = s.root.board ∧
      (rejectRootMates fp env depth s).probes.length ≤ s.probes.length + s.children.length ∧
      ((rejectRootMates fp env depth s).cancelled = false →
        Passed fp env depth (rejectRootMates fp env depth s)) := by
  have hlength : s.children.length ≠ 0 := fun h => hne (List.length_eq_zero_iff.mp h)
  have hrun : rejectRootMates fp env depth s = guardLoop fp env depth s.children.length s := by
    rw [rejectRootMates, if_neg (not_or.mpr ⟨not_le.mpr hdepth, hlength⟩)]
  obtain ⟨hboard, hprobes, hpassed⟩ := guardLoop_spec fp env depth hs hne
    List.countP_le_length
  rw [hrun]
  refine ⟨selectBestChild_wellPicked fp hne hs.visits, hboard, hprobes, fun hno => hpassed.resolve_left ?_⟩
  rw [hno]
  exact Bool.false_ne_true

/-- Priors as rational numbers. -/
def rationalPriors : PriorOps ℚ := ⟨fun x y => decide (y < x), -1⟩

/-- The king next to the board's edge steps back or forward; nothing has been searched. -/
def corneredGuard : Guard ℚ where
  children :=
    [⟨.normal (.fromIdx 44) (.fromIdx 43), 1 / 2, 0, 0#8⟩, ⟨.normal (.fromIdx 44) (.fromIdx 35), 1 / 2, 0, 0#8⟩]
  root := ⟨Env.cornered, ⟨false, 0#32, 0⟩⟩
  cancelled := false
  probes := []

theorem ready_corneredGuard : Ready corneredGuard := by
  refine ⟨Env.playable_cornered, fun c hc => ?_, by decide⟩
  have hmem : ∀ c ∈ corneredGuard.children, c.move ∈ Env.cornered.generateLegalMoves := by decide +kernel
  exact Env.playable_cornered.legal_iff.mp (hmem c hc)

theorem rejectRootMates_guards_cornered :
    (∃ c, corneredGuard.children[selectBestChild rationalPriors corneredGuard.children]? = some c ∧
        WellPicked corneredGuard.children c) ∧
      (rejectRootMates rationalPriors ⟨none, Env.searchMate⟩ 3 corneredGuard).root.board = Env.cornered ∧
      (rejectRootMates rationalPriors ⟨none, Env.searchMate⟩ 3 corneredGuard).probes.length ≤ 2 ∧
      ((rejectRootMates rationalPriors ⟨none, Env.searchMate⟩ 3 corneredGuard).cancelled = false →
        Passed rationalPriors ⟨none, Env.searchMate⟩ 3
          (rejectRootMates rationalPriors ⟨none, Env.searchMate⟩ 3 corneredGuard)) :=
  rejectRootMates_guards rationalPriors ⟨none, Env.searchMate⟩ 3 corneredGuard (by decide)
    ready_corneredGuard (by decide)

/-- With a depth of zero the guard probes nothing; and an edge that is not proven is passed over for a
proven loss if its count is the smallest `int` and its prior is -1. -/
theorem not_guarded_everywhere :
    ((rejectRootMates rationalPriors ⟨none, Env.searchMate⟩ 0 corneredGuard).cancelled = false ∧
        (∀ c ∈ (rejectRootMates rationalPriors ⟨none, Env.searchMate⟩ 0 corneredGuard).children,
          c.unproven = true) ∧
        (rejectRootMates rationalPriors ⟨none, Env.searchMate⟩ 0 corneredGuard).probes = []) ∧
      selectBestChild rationalPriors
        [⟨.normal (.fromIdx 44) (.fromIdx 43), 1 / 2, 0, kWin⟩,
          ⟨.normal (.fromIdx 44) (.fromIdx 35), -1, intMin, 0#8⟩] = 0 :=
  ⟨⟨rfl, by decide, rfl⟩, by decide⟩

end Shogi.Mcts
