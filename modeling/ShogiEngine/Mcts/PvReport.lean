import ShogiEngine.Mcts.RootGuard
import ShogiEngine.Mcts.TreeReuse

/-!
# The principal variation

`GetPV` of `mcts/uct_search.cc`. The search threads report it while the others go on, so every read may
see another memory.

## Main definitions

- `pvStep`: one read of `GetPV`, with the loop of `SelectBestChild` in it
- `rootChildren`: the children of a node as `SelectBestChild` sees them
- `LegalPath`: legal moves, one after the other

## Main results

- `pv_of_watch`: a report in the middle of a search is a line of legal moves
- `pv_of_rest`: the report behind the search begins with the best move
-/

namespace Shogi.Mcts

/-! ## The reads -/

/-- Where `GetPV` is: the moves so far, the node, and the variables of `SelectBestChild`. -/
inductive PvPc (M : Type)
  | isExpanded (pv : List M) (a : Addr)
  | childNum (pv : List M) (a : Addr)
  -- `SelectBestChild`
  | bound (pv : List M) (a : Addr) (i : Nat) (s : Best Num)
  | visits (pv : List M) (a : Addr) (i : Nat) (s : Best Num)
  | isLose (pv : List M) (a : Addr) (i : Nat) (s : Best Num) (n : Int)
  | isWin (pv : List M) (a : Addr) (i : Nat) (s : Best Num) (n : Int)
  | prior (pv : List M) (a : Addr) (i : Nat) (s : Best Num) (n : Int)
  -- the child that was selected
  | moveCount (pv : List M) (a : Addr) (k : Nat)
  | unvisited (pv : List M) (a : Addr) (k : Nat)
  | push (pv : List M) (a : Addr) (k : Nat)
  | next (pv : List M) (a : Addr) (k : Nat)
  | done (pv : List M)

section Reads

variable {ι P M : Type} (fp : PriorOps Num)

/-- One read of `GetPV`. -/
def pvStep (m : Memory ι P M) : PvPc M → PvPc M
  | .isExpanded pv a => if m.state a = .expanded then .childNum pv a else .done pv
  | .childNum pv a => if 0 < m.childNum a then .bound pv a 0 ⟨0, intMin, fp.minusOne⟩ else .done pv
  | .bound pv a i s => if i < m.childNum a then .visits pv a i s else .moveCount pv a s.best
  | .visits pv a i s => .isLose pv a i s (m.childMoveCount (a, i))
  | .isLose pv a i s n => if m.childFlags (a, i) .loss then .moveCount pv a i else .isWin pv a i s n
  | .isWin pv a i s n => if m.childFlags (a, i) .win then .bound pv a (i + 1) s else .prior pv a i s n
  | .prior pv a i s n =>
    if s.bestVisits < n ∨ n = s.bestVisits ∧ fp.gt (m.childNnrate (a, i)) s.bestPrior = true then
      .bound pv a (i + 1) ⟨i, n, m.childNnrate (a, i)⟩
    else .bound pv a (i + 1) s
  | .moveCount pv a k => if m.childMoveCount (a, k) ≤ 0 then .unvisited pv a k else .push pv a k
  | .unvisited pv a k => if m.childFlags (a, k) .loss then .push pv a k else .done pv
  | .push pv a k => .next (pv ++ (m.childMove (a, k)).toList) a k
  | .next pv a k =>
    (m.childNode (a, k)).elim (.done pv) fun b => if 256 < pv.length then .done pv else .isExpanded pv b
  | .done pv => .done pv

/-- Legal moves, one after the other. -/
def LegalPath (R : Rules P M) : P → List M → Prop
  | _, [] => True
  | p, mv :: mvs => mv ∈ R.generateLegalMoves p ∧ LegalPath R (R.doMove p mv) mvs

/-- The node that a line of at most 256 legal moves from the root leads to. -/
structure Stands (R : Rules P M) (root : Addr) (m : Memory ι P M) (pv : List M) (a : Addr) : Prop where
  legal : LegalPath R (m.pos root) pv
  length_le : pv.length ≤ 256
  lt : a < m.next
  pos : m.pos a = pv.foldl R.doMove (m.pos root)

/-- What `GetPV` relies on. -/
def PvPc.Knows (R : Rules P M) (root : Addr) (m : Memory ι P M) : PvPc M → Prop
  | .isExpanded pv a => Stands R root m pv a
  | .childNum pv a => Stands R root m pv a ∧ m.state a = .expanded
  | .bound pv a _ s => Stands R root m pv a ∧ m.state a = .expanded ∧ s.best < m.childNum a
  | .visits pv a i s | .isLose pv a i s _ | .isWin pv a i s _ | .prior pv a i s _ =>
      Stands R root m pv a ∧ m.state a = .expanded ∧ s.best < m.childNum a ∧ i < m.childNum a
  | .moveCount pv a k | .unvisited pv a k | .push pv a k =>
      Stands R root m pv a ∧ m.state a = .expanded ∧ k < m.childNum a
  | .next pv a k => ∃ pv' mv, pv = pv' ++ [mv] ∧ Stands R root m pv' a ∧ m.state a = .expanded ∧
      k < m.childNum a ∧ m.childMove (a, k) = some mv
  | .done pv => LegalPath R (m.pos root) pv ∧ pv.length ≤ 257

end Reads

/-! ## What the reads see -/

section Reports

variable {ι P M S : Type} {R : Rules P M} {ops : PuctOps S} {fp : PriorOps Num} {root a : Addr}
  {m m' : Memory ι P M} {p : P} {pv : List M} {mv : M}

theorem LegalPath.concat (h : LegalPath R p pv) (hmv : mv ∈ R.generateLegalMoves (pv.foldl R.doMove p)) :
    LegalPath R p (pv ++ [mv]) := by
  induction pv generalizing p with
  | nil => exact ⟨hmv, trivial⟩
  | cons x xs ih => exact ⟨h.1, ih h.2 hmv⟩

theorem Stands.grow (hg : Grows m m') (hroot : root < m.next) (h : Stands R root m pv a) : Stands R root m' pv a := by
  have hpos := hg.pos_eq root hroot
  refine ⟨?_, h.length_le, h.lt.trans_le hg.next_le, ?_⟩
  · rw [hpos]
    exact h.legal
  · rw [hg.pos_eq a h.lt, hpos]
    exact h.pos

theorem Stands.done (h : Stands R root m pv a) : (PvPc.done pv).Knows R root m :=
  ⟨h.legal, h.length_le.trans (Nat.le_succ _)⟩

/-- What `GetPV` relies on stays true while the threads go on. -/
theorem PvPc.Knows.grow {r : PvPc M} (hg : Grows m m') (hroot : root < m.next) (h : r.Knows R root m) :
    r.Knows R root m' := by
  cases r with
  | isExpanded => exact Stands.grow hg hroot h
  | childNum => exact ⟨h.1.grow hg hroot, (hg.expanded _ h.2).1⟩
  | bound pv a i s =>
    obtain ⟨hstands, hexp, hbest⟩ := h
    obtain ⟨hexp', hnum, -⟩ := hg.expanded _ hexp
    exact ⟨hstands.grow hg hroot, hexp', hnum ▸ hbest⟩
  | visits | isLose | isWin | prior =>
    obtain ⟨hstands, hexp, hbest, hi⟩ := h
    obtain ⟨hexp', hnum, -⟩ := hg.expanded _ hexp
    exact ⟨hstands.grow hg hroot, hexp', hnum ▸ hbest, hnum ▸ hi⟩
  | moveCount | unvisited | push =>
    obtain ⟨hstands, hexp, hk⟩ := h
    obtain ⟨hexp', hnum, -⟩ := hg.expanded _ hexp
    exact ⟨hstands.grow hg hroot, hexp', hnum ▸ hk⟩
  | next pv a k =>
    obtain ⟨pv', mv, hpv, hstands, hexp, hk, hmove⟩ := h
    obtain ⟨hexp', hnum, -, hsame⟩ := hg.expanded _ hexp
    exact ⟨pv', mv, hpv, hstands.grow hg hroot, hexp', hnum ▸ hk, (hsame k).1.trans hmove⟩
  | done pv => exact ⟨hg.pos_eq root hroot ▸ h.1, h.2⟩

/-- A move behind the line. -/
theorem Stands.concat (hs : Sound R root m) (h : Stands R root m pv a) (hexp : m.state a = .expanded) {k : Nat}
    (hk : k < m.childNum a) (hmove : m.childMove (a, k) = some mv) : LegalPath R (m.pos root) (pv ++ [mv]) := by
  obtain ⟨mv', hmem, hmv'⟩ := hs.exists_move hexp hk
  obtain rfl : mv = mv' := Option.some.inj (hmove.symm.trans hmv')
  exact h.legal.concat (h.pos ▸ hmem)

/-- A read keeps what `GetPV` relies on. -/
theorem PvPc.Knows.read {r : PvPc M} (fp : PriorOps Num) (hs : Sound R root m) (h : r.Knows R root m) :
    (pvStep fp m r).Knows R root m := by
  cases r with
  | isExpanded pv a =>
    rw [pvStep]
    split_ifs with hexp
    · exact ⟨h, hexp⟩
    · exact Stands.done h
  | childNum pv a =>
    rw [pvStep]
    split_ifs with hpos
    · exact ⟨h.1, h.2, hpos⟩
    · exact h.1.done
  | bound pv a i s =>
    rw [pvStep]
    split_ifs with hi
    · exact ⟨h.1, h.2.1, h.2.2, hi⟩
    · exact h
  | visits pv a i s => exact h
  | isLose pv a i s n =>
    rw [pvStep]
    split_ifs
    · exact ⟨h.1, h.2.1, h.2.2.2⟩
    · exact h
  | isWin pv a i s n =>
    rw [pvStep]
    split_ifs
    · exact ⟨h.1, h.2.1, h.2.2.1⟩
    · exact h
  | prior pv a i s n =>
    rw [pvStep]
    split_ifs
    · exact ⟨h.1, h.2.1, h.2.2.2⟩
    · exact ⟨h.1, h.2.1, h.2.2.1⟩
  | moveCount pv a k =>
    rw [pvStep]
    split_ifs
    · exact h
    · exact h
  | unvisited pv a k =>
    rw [pvStep]
    split_ifs
    · exact h
    · exact h.1.done
  | push pv a k =>
    obtain ⟨hstands, hexp, hk⟩ := h
    obtain ⟨mv, -, hmove⟩ := hs.exists_move hexp hk
    exact ⟨pv, mv, by rw [hmove]; rfl, hstands, hexp, hk, hmove⟩
  | next pv a k =>
    obtain ⟨pv', mv, rfl, hstands, hexp, hk, hmove⟩ := h
    have hlegal := hstands.concat hs hexp hk hmove
    have hlength : (pv' ++ [mv]).length ≤ 257 := by
      rw [List.length_append, List.length_singleton]
      exact Nat.succ_le_succ hstands.length_le
    rw [pvStep]
    cases hnode : m.childNode (a, k) with
    | none => exact ⟨hlegal, hlength⟩
    | some b =>
      rw [Option.elim_some]
      split_ifs with hlong
      · exact ⟨hlegal, hlength⟩
      · obtain ⟨-, hlt, -, mv', hmv', hpos⟩ := hs.child _ _ hnode
        obtain rfl : mv = mv' := Option.some.inj (hmove.symm.trans hmv')
        refine ⟨hlegal, not_lt.mp hlong, hlt, ?_⟩
        rw [hpos, hstands.pos, List.foldl_append]
        rfl
  | done pv => exact h

/-- A report that begins at any time and reads while the threads go on is a line of legal moves from the root. -/
theorem pv_of_watch [DecidableEq ι] {priors : Nat → Num} {visited : Num}
    {c : Threads.Config ι (Memory ι P M) (Pc P S)} (hm : Grown R ops m root)
    (h : (searchers R ops root).Watch (pvStep fp) (startSearch R m root priors visited) (.isExpanded [] root) c
      (.done pv)) :
    LegalPath R (m.pos root) pv ∧ pv.length ≤ 257 := by
  have hknows : (PvPc.done pv).Knows R root c.shared := by
    refine h.invariant (J := fun m r => PvPc.Knows R root m r) ?_ ?_ ?_
    · intro c hreach
      obtain ⟨hs, -⟩ := known_of_grown hm hreach
      exact ⟨trivial, Nat.zero_le _, hs.root_lt, rfl⟩
    · intro c r hreach hr
      exact hr.read fp (known_of_grown hm hreach).1
    · rintro i c c' r hreach hr ⟨s, t, hact, rfl⟩
      obtain ⟨hs, hknown⟩ := known_of_grown hm hreach
      exact hr.grow (Act.frame hact hs (hknown i)).1 hs.root_lt
  have hpos := pos_of_reach hm h.reach
  exact ⟨hpos ▸ hknows.1, hknows.2⟩

end Reports

/-! ## The report behind the search -/

section Rest

variable {ι P S : Type}

/-- The flags of an edge as a byte. -/
def edgeFlags (flags : Outcome → Bool) : BitVec 8 :=
  (if flags .win then kWin else 0#8) ||| (if flags .loss then kLose else 0#8) ||| (if flags .draw then 4#8 else 0#8)

/-- A child of a node. -/
def edgeChild (m : Memory ι P Move) (e : Edge) : RootChild Num :=
  ⟨(m.childMove e).getD (.normal (.fromIdx 0) (.fromIdx 0)), m.childNnrate e, m.childMoveCount e, edgeFlags (m.childFlags e)⟩

/-- The children of a node. -/
def rootChildren (m : Memory ι P Move) (a : Addr) : List (RootChild Num) :=
  (List.range (m.childNum a)).map fun k => edgeChild m (a, k)

/-- `best_move` of `BuildResult`. -/
def bestMove (fp : PriorOps Num) (children : List (RootChild Num)) : Option Move :=
  (children[selectBestChild fp children]?).map RootChild.move

/-- `GetPV` reads a memory that does not change. -/
abbrev Reads (fp : PriorOps Num) (m : Memory ι P Move) : PvPc Move → PvPc Move → Prop :=
  Relation.ReflTransGen fun r r' => pvStep fp m r = r'

variable {R : Rules P Move} {fp : PriorOps Num} {root a : Addr} {m : Memory ι P Move} {e : Edge} {pv : List Move}

theorem flags_byte : ∀ win lose draw : Bool,
    let byte := (if win then kWin else 0#8) ||| (if lose then kLose else 0#8) ||| (if draw then 4#8 else 0#8)
    decide (byte &&& kWin ≠ 0#8) = win ∧ decide (byte &&& kLose ≠ 0#8) = lose := by
  decide

theorem isLose_edgeChild : (edgeChild m e).isLose = m.childFlags e .loss := (flags_byte ..).2

theorem isWin_edgeChild : (edgeChild m e).isWin = m.childFlags e .win := (flags_byte _ _ (m.childFlags e .draw)).1

theorem length_rootChildren : (rootChildren m a).length = m.childNum a := by
  rw [rootChildren, List.length_map, List.length_range]

theorem getElem?_rootChildren {k : Nat} (hk : k < m.childNum a) :
    (rootChildren m a)[k]? = some (edgeChild m (a, k)) := by
  rw [rootChildren, List.getElem?_map, List.getElem?_range hk, Option.map_some]

theorem drop_rootChildren {i : Nat} (hi : i < m.childNum a) :
    (rootChildren m a).drop i = edgeChild m (a, i) :: (rootChildren m a).drop (i + 1) := by
  have hlt : i < (rootChildren m a).length := length_rootChildren.symm ▸ hi
  rw [List.drop_eq_getElem_cons hlt]
  congr 1
  exact Option.some.inj ((List.getElem?_eq_getElem hlt).symm.trans (getElem?_rootChildren hi))

/-- The reads of the loop of `SelectBestChild`. -/
theorem reads_select {i : Nat} {s : Best Num} : Reads fp m (.bound pv a i s)
    (.moveCount pv a (selectFrom fp ((rootChildren m a).drop i) i s)) := by
  induction hn : m.childNum a - i generalizing i s with
  | zero =>
    have hi : ¬ i < m.childNum a := by omega
    have hnil : (rootChildren m a).drop i = [] := List.drop_eq_nil_of_le (length_rootChildren.trans_le (by omega))
    rw [hnil]
    exact .single (if_neg hi)
  | succ n ih =>
    have hi : i < m.childNum a := by omega
    rw [drop_rootChildren hi, selectFrom]
    refine .head (if_pos hi) (.head rfl ?_)
    -- the flags first, then visits and prior
    rw [isLose_edgeChild, isWin_edgeChild]
    by_cases hlose : m.childFlags (a, i) .loss = true
    · rw [if_pos hlose]
      exact .single (if_pos hlose)
    · rw [if_neg hlose]
      refine .head (if_neg hlose) ?_
      by_cases hwin : m.childFlags (a, i) .win = true
      · rw [if_pos hwin]
        exact .head (if_pos hwin) (ih (by omega))
      · rw [if_neg hwin]
        refine .head (if_neg hwin) ?_
        split_ifs with hbetter
        · exact .head (if_pos hbetter) (ih (by omega))
        · exact .head (if_neg hbetter) (ih (by omega))

theorem selectBestChild_lt (fp : PriorOps Num) (h : 0 < m.childNum a) : selectBestChild fp (rootChildren m a) < m.childNum a := by
  have hne : rootChildren m a ≠ [] := by
    rw [← List.length_pos_iff, length_rootChildren]
    exact h
  obtain ⟨c, hc⟩ := exists_selectBestChild fp hne
  exact length_rootChildren (m := m) (a := a) ▸ (List.getElem?_eq_some_iff.mp hc).1

theorem PvPc.Knows.reads {r r' : PvPc Move} (hs : Sound R root m) (hreads : Reads fp m r r')
    (h : r.Knows R root m) : r'.Knows R root m := by
  induction hreads with
  | refl => exact h
  | tail _ hread ih => exact hread ▸ ih.read fp hs

/-- The report ends, and a move that it finds at a node is the one that is selected there. -/
theorem exists_reads_done (fp : PriorOps Num) (hs : Sound R root m) (h : Stands R root m pv a) : ∃ pv',
    Reads fp m (.isExpanded pv a) (.done pv') ∧ (pv' = pv ∨ ∃ mv rest, pv' = pv ++ mv :: rest ∧
      0 < m.childNum a ∧ m.childMove (a, selectBestChild fp (rootChildren m a)) = some mv) := by
  induction hn : 257 - pv.length using Nat.strong_induction_on generalizing pv a with
  | _ n ih =>
    by_cases hexp : m.state a = .expanded
    swap
    · exact ⟨pv, .single (if_neg hexp), Or.inl rfl⟩
    by_cases hnum : 0 < m.childNum a
    swap
    · exact ⟨pv, .head (if_pos hexp) (.single (if_neg hnum)), Or.inl rfl⟩
    set k := selectBestChild fp (rootChildren m a) with hbest
    have hk : k < m.childNum a := selectBestChild_lt fp hnum
    have hselect : Reads fp m (.isExpanded pv a) (.moveCount pv a k) :=
      .head (if_pos hexp) (.head (if_pos hnum) reads_select)
    obtain ⟨mv, -, hmove⟩ := hs.exists_move hexp hk
    -- what follows when the move is taken
    have hpush : ∃ pv', Reads fp m (.push pv a k) (.done pv') ∧ ∃ rest, pv' = pv ++ mv :: rest := by
      have hread : pvStep fp m (.push pv a k) = .next (pv ++ [mv]) a k := by
        rw [pvStep, hmove]
        rfl
      have hnext : (PvPc.next (pv ++ [mv]) a k).Knows R root m := ⟨pv, mv, rfl, h, hexp, hk, hmove⟩
      have hstep := hnext.read fp hs
      cases hnode : m.childNode (a, k) with
      | none =>
        have hdone : pvStep fp m (.next (pv ++ [mv]) a k) = .done (pv ++ [mv]) := by
          rw [pvStep, hnode]
          rfl
        exact ⟨_, .head hread (.single hdone), [], rfl⟩
      | some b =>
        have hdown : pvStep fp m (.next (pv ++ [mv]) a k) =
            if 256 < (pv ++ [mv]).length then .done (pv ++ [mv]) else .isExpanded (pv ++ [mv]) b := by
          rw [pvStep, hnode]
          rfl
        rw [hdown] at hstep
        split_ifs at hdown hstep with hlong
        · exact ⟨_, .head hread (.single hdown), [], rfl⟩
        · have hlength : (pv ++ [mv]).length = pv.length + 1 := List.length_append
          obtain ⟨pv', hreads, hpv'⟩ := ih (257 - (pv ++ [mv]).length) (by omega) hstep rfl
          refine ⟨pv', .head hread (.head hdown hreads), ?_⟩
          obtain rfl | ⟨mv', rest, rfl, -⟩ := hpv'
          · exact ⟨[], rfl⟩
          · exact ⟨mv' :: rest, List.append_assoc ..⟩
    by_cases hcount : m.childMoveCount (a, k) ≤ 0 ∧ ¬ m.childFlags (a, k) .loss = true
    · exact ⟨pv, hselect.tail (if_pos hcount.1) |>.tail (if_neg hcount.2), Or.inl rfl⟩
    · have htaken : Reads fp m (.moveCount pv a k) (.push pv a k) := by
        by_cases hzero : m.childMoveCount (a, k) ≤ 0
        · have hlose : m.childFlags (a, k) .loss = true := by
            by_contra hnot
            exact hcount ⟨hzero, hnot⟩
          exact .head (if_pos hzero) (.single (if_pos hlose))
        · exact .single (if_neg hzero)
      obtain ⟨pv', hreads, rest, hpv'⟩ := hpush
      exact ⟨pv', hselect.trans (htaken.trans hreads), Or.inr ⟨mv, rest, hpv', hnum, hmove⟩⟩

/-! ### Behind the guard -/

/-- `SetWin` on edges of the root. -/
def Memory.setWins (m : Memory ι P Move) (root : Addr) (won : List Nat) : Memory ι P Move :=
  { m with childFlags := fun e =>
      if e.1 = root ∧ e.2 ∈ won then Function.update (m.childFlags e) .win true else m.childFlags e }

section Guard

variable (fp) (env : ShallowMate.Env) (depth : Int) {g : Guard Num} {won : List Nat}

theorem edgeFlags_update (flags : Outcome → Bool) :
    edgeFlags (Function.update flags .win true) = edgeFlags flags ||| kWin := by
  have hwin : Function.update flags .win true .win = true := Function.update_self ..
  have hlose : Function.update flags .win true .loss = flags .loss := Function.update_of_ne (by decide) ..
  have hdraw : Function.update flags .win true .draw = flags .draw := Function.update_of_ne (by decide) ..
  have hbyte : ∀ win lose draw : Bool, (if true then kWin else 0#8) ||| (if lose then kLose else 0#8) |||
      (if draw then 4#8 else 0#8) = ((if win then kWin else 0#8) ||| (if lose then kLose else 0#8) |||
        (if draw then 4#8 else 0#8)) ||| kWin := by
    decide
  rw [edgeFlags, edgeFlags, hwin, hlose, hdraw]
  exact hbyte ..

/-- One more edge with the flag. -/
theorem rootChildren_setWins_cons {k : Nat} : rootChildren (m.setWins root (k :: won)) root =
    (rootChildren (m.setWins root won) root).modify k RootChild.setWin := by
  apply List.ext_getElem?
  intro j
  rw [List.getElem?_modify]
  by_cases hj : j < m.childNum root
  swap
  · have hnone : ∀ won, (rootChildren (m.setWins root won) root)[j]? = none := fun won =>
      List.getElem?_eq_none (length_rootChildren.trans_le (not_lt.mp hj))
    rw [hnone, hnone]
    rfl
  have hget : ∀ won, (rootChildren (m.setWins root won) root)[j]? = some (edgeChild (m.setWins root won) (root, j)) :=
    fun won => getElem?_rootChildren hj
  rw [hget, hget, Option.map_eq_map, Option.map_some]
  congr 1
  by_cases hk : k = j
  · subst hk
    rw [if_pos rfl]
    have hflags : (m.setWins root (k :: won)).childFlags (root, k) =
        Function.update ((m.setWins root won).childFlags (root, k)) .win true := by
      have hhere : (m.setWins root (k :: won)).childFlags (root, k) =
          Function.update (m.childFlags (root, k)) .win true := if_pos ⟨rfl, List.mem_cons_self⟩
      rw [hhere, Memory.setWins]
      dsimp only
      split_ifs
      · rw [Function.update_idem]
      · rfl
    rw [edgeChild, hflags, edgeFlags_update]
    rfl
  · rw [if_neg hk]
    have hflags : (m.setWins root (k :: won)).childFlags (root, j) = (m.setWins root won).childFlags (root, j) := by
      have hmem : j ∈ k :: won ↔ j ∈ won := by
        rw [List.mem_cons]
        exact or_iff_right (Ne.symm hk)
      simp only [Memory.setWins, hmem]
    rw [edgeChild, hflags]
    rfl

/-- A pass of the guard changes no child, or sets a flag. -/
theorem children_guardPass : (guardPass fp env depth g).1.children = g.children ∨
    ∃ k, (guardPass fp env depth g).1.children = g.children.modify k RootChild.setWin := by
  rw [guardPass]
  dsimp only
  cases g.children[selectBestChild fp g.children]? with
  | none => exact Or.inl rfl
  | some child =>
    rw [Option.elim_some]
    split_ifs
    · exact Or.inl rfl
    · exact Or.inl rfl
    · exact Or.inl rfl
    · exact Or.inr ⟨_, rfl⟩

theorem exists_setWins_guardLoop {n : Nat} (hg : g.children = rootChildren (m.setWins root won) root) :
    ∃ won', (guardLoop fp env depth n g).children = rootChildren (m.setWins root won') root := by
  induction n generalizing g won with
  | zero => exact ⟨won, hg⟩
  | succ n ih =>
    have hpass : ∃ won', (guardPass fp env depth g).1.children = rootChildren (m.setWins root won') root := by
      obtain hsame | ⟨k, hset⟩ := children_guardPass fp env depth (g := g)
      · exact ⟨won, hsame.trans hg⟩
      · exact ⟨k :: won, by rw [hset, hg, rootChildren_setWins_cons]⟩
    obtain ⟨won', hwon'⟩ := hpass
    rw [guardLoop]
    split_ifs
    · exact ih hwon'
    · exact ⟨won', hwon'⟩

/-- The guard sets flags of edges of the root. -/
theorem exists_setWins (hg : g.children = rootChildren m root) :
    ∃ won, (rejectRootMates fp env depth g).children = rootChildren (m.setWins root won) root := by
  have hnone : g.children = rootChildren (m.setWins root []) root := by
    rw [hg]
    refine congrArg (List.map · _) (funext fun k => ?_)
    have hflags : (m.setWins root []).childFlags (root, k) = m.childFlags (root, k) :=
      if_neg fun h => absurd h.2 List.not_mem_nil
    rw [edgeChild, edgeChild, hflags]
    rfl
  rw [rejectRootMates]
  split_ifs
  · exact ⟨[], hnone⟩
  · exact exists_setWins_guardLoop fp env depth hnone

theorem Sound.setWins (hs : Sound R root m) (won : List Nat) : Sound R root (m.setWins root won) := by
  have hsame : SameTree m (m.setWins root won) := ⟨rfl, rfl, rfl, rfl, rfl, rfl, rfl, rfl, rfl⟩
  refine hs.sameTree hsame fun e he => if_neg fun h => he ?_
  rw [h.1]
  exact hs.root_expanded

theorem bestMove_eq_none_iff {children : List (RootChild Num)} : bestMove fp children = none ↔ children = [] := by
  rw [bestMove, Option.map_eq_none_iff]
  constructor
  · intro hnone
    by_contra hne
    obtain ⟨c, hc⟩ := exists_selectBestChild fp hne
    exact Option.some_ne_none c (hc.symm.trans hnone)
  · rintro rfl
    rfl

/-- The best move of a memory is a move of the root. -/
theorem Sound.bestMove_mem (hs : Sound R root m) {mv : Move} (h : bestMove fp (rootChildren m root) = some mv) :
    0 < m.childNum root ∧ mv ∈ R.generateLegalMoves (m.pos root) ∧
      m.childMove (root, selectBestChild fp (rootChildren m root)) = some mv := by
  have hpos : 0 < m.childNum root := by
    rw [Nat.pos_iff_ne_zero]
    intro hzero
    have hnil : rootChildren m root = [] := List.eq_nil_of_length_eq_zero (length_rootChildren.trans hzero)
    rw [(bestMove_eq_none_iff fp).mpr hnil] at h
    cases h
  have hlt := selectBestChild_lt fp hpos
  obtain ⟨mv', hmem, hmove⟩ := hs.exists_move hs.root_expanded hlt
  rw [bestMove, getElem?_rootChildren hlt, Option.map_some, edgeChild, hmove] at h
  obtain rfl : mv' = mv := Option.some.inj h
  exact ⟨hpos, hmem, hmove⟩

end Guard

/-- What a search returns: a best move of the root unless there is none, and a line of legal moves that is empty or
begins with it. -/
structure Returned (fp : PriorOps Num) (R : Rules P Move) (p : P) (children : List (RootChild Num))
    (pv : List Move) : Prop where
  none_iff : bestMove fp children = none ↔ R.generateLegalMoves p = []
  best : ∀ mv, bestMove fp children = some mv → mv ∈ R.generateLegalMoves p
  legal : LegalPath R p pv
  length_le : pv.length ≤ 257
  head : ∀ mv ∈ pv.head?, bestMove fp children = some mv

/-- However a search has gone, behind it the root guard changes at most flags, and then `GetPV` ends and agrees with
the best move. -/
theorem pv_of_rest [DecidableEq ι] {ops : PuctOps S} {f : ShogiBoard → Option Move} {cfg : SearchConfig}
    {priors : Nat → Num} {visited : Num} {m : Memory ι ShogiBoard Move}
    {c : Threads.Config ι (Memory ι ShogiBoard Move) (Pc ShogiBoard S)} (hm : Grown (searchRules f cfg) ops m root)
    (hrun : (searchers (searchRules f cfg) ops root).Reach (startSearch (searchRules f cfg) m root priors visited) c)
    (fp : PriorOps Num) (env : ShallowMate.Env) (depth : Int) {g : Guard Num} (hg : g.children = rootChildren c.shared root) :
    ∃ m' pv, SameTree c.shared m' ∧ (rejectRootMates fp env depth g).children = rootChildren m' root ∧
      Reads fp m' (.isExpanded [] root) (.done pv) ∧
      Returned fp (searchRules f cfg) (m.pos root) (rejectRootMates fp env depth g).children pv := by
  obtain ⟨hs, -⟩ := known_of_grown hm hrun
  obtain ⟨won, hchildren⟩ := exists_setWins fp env depth hg
  have hs' := hs.setWins won
  have hpos : (c.shared.setWins root won).pos root = m.pos root := pos_of_reach hm hrun
  have hstart : Stands (searchRules f cfg) root (c.shared.setWins root won) [] root :=
    ⟨trivial, Nat.zero_le _, hs'.root_lt, rfl⟩
  obtain ⟨pv, hreads, hpv⟩ := exists_reads_done fp hs' hstart
  have hdone := PvPc.Knows.reads hs' hreads hstart
  refine ⟨c.shared.setWins root won, pv, ⟨rfl, rfl, rfl, rfl, rfl, rfl, rfl, rfl, rfl⟩, hchildren, hreads, ?_⟩
  rw [hchildren]
  refine ⟨?_, fun mv hmv => ?_, hpos ▸ hdone.1, hdone.2, fun mv hmv => ?_⟩
  · rw [bestMove_eq_none_iff, ← List.length_eq_zero_iff, length_rootChildren]
    obtain ⟨hnum, -⟩ | ⟨hnum, hnone⟩ := hs'.built root hs'.root_expanded
    · rw [hnum, hpos, List.length_eq_zero_iff]
    · rw [hpos] at hnone
      exact ⟨fun _ => generateLegalMoves_of_noMove hnone, fun _ => hnum⟩
  · exact hpos ▸ (hs'.bestMove_mem fp hmv).2.1
  · obtain rfl | ⟨mv', rest, rfl, hnum, hmove⟩ := hpv
    · cases hmv
    · obtain rfl : mv' = mv := Option.some.inj hmv
      rw [bestMove, getElem?_rootChildren (selectBestChild_lt fp hnum), Option.map_some, edgeChild, hmove]
      rfl

end Rest

/-! ## A search that has just begun -/

/-- `>` on finite numbers; it is false where one of them is not finite. -/
def finiteOps : PriorOps Num where
  gt x y := (x.bind fun x => y.map fun y => decide (y < x)).getD false
  minusOne := some (-1)

theorem sound_goldStart : Sound goldRules 0 goldStart.shared :=
  (known_of_grown grown_new_goldEnding .start).1

theorem pv_goldStart : ∃ pv, (searchers goldRules priorOps 0).Watch (pvStep finiteOps) goldStart (.isExpanded [] 0)
    goldStart (.done pv) ∧ LegalPath goldRules ShogiBoard.goldEnding pv ∧ pv.length ≤ 257 := by
  have hstart : Stands goldRules 0 goldStart.shared [] 0 := ⟨trivial, Nat.zero_le _, sound_goldStart.root_lt, rfl⟩
  obtain ⟨pv, hreads, -⟩ := exists_reads_done finiteOps sound_goldStart hstart
  have hwatch := (Threads.Watch.start .start : (searchers goldRules priorOps 0).Watch (pvStep finiteOps) goldStart
    (.isExpanded [] 0) goldStart (.isExpanded [] 0)).reads hreads
  exact ⟨pv, hwatch, pv_of_watch grown_new_goldEnding hwatch⟩

theorem returned_goldStart : ∃ m' pv, SameTree goldStart.shared m' ∧
    Reads finiteOps m' (.isExpanded [] 0) (.done pv) ∧
    Returned finiteOps goldRules ShogiBoard.goldEnding (rootChildren m' 0) pv := by
  obtain ⟨m', pv, hsame, hchildren, hreads, hreturned⟩ := pv_of_rest grown_new_goldEnding
    (.start : (searchers goldRules priorOps 0).Reach goldStart goldStart) finiteOps ⟨none, fun _ => none⟩ 3
    (g := ⟨rootChildren goldStart.shared 0, ⟨.goldEnding, ⟨false, 0#32, 0⟩⟩, false, []⟩) rfl
  exact ⟨m', pv, hsame, hreads, hchildren ▸ hreturned⟩

end Shogi.Mcts
