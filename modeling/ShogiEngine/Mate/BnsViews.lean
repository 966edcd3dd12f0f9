import ShogiEngine.Library.Monitor
import ShogiEngine.Mate.BnsSolver

/-!
# The numbers that a search reads

What holds of every view that a search reads and stores. In a run whose sums stay below `kInf`,
every view of a child is a verdict or a pair of counts.

## Main definitions

- `Standard`: what is required of the views and of the passes of a run
- `watch`: the monitor of a standard
- `Admits`: the steps of a search keep to a standard

## Main results

- `Admits.upholds_searchImpl`: the search keeps to a standard that its steps keep to
- `numbers_of_search`: what the views of a run are
-/

namespace Shogi

namespace MateBnsSolver

open Bns

/-- What is required of every view, what of every pass that is not the last one watched, and whether
an index out of range is put up with. -/
structure Standard where
  view : ChildView → Prop
  pass : Bool → List ChildView → Prop
  badIndex : Prop

/-- The views that the search could read are up to the standard, and so were those that it read. -/
structure Meets (K : Standard) (s : SearchState) : Prop where
  sane : s.tt.Sane
  entries : s.tt.Holds fun e => K.view e.view
  overrides : ∀ o ∈ s.overrides, K.view o.view
  summaries : ∀ call ∈ s.summaries, ∀ v ∈ call.2, K.view v

/-- The monitor of a run: as long as the passes are as required, the views are. -/
def watch (K : Standard) : Monitor Halt SearchState where
  clear s := ∀ call ∈ s.summaries, K.pass call.1 call.2
  good := Meets K
  allowed e := e = .badIndex → K.badIndex

/-- The steps of a search keep to the standard. -/
structure Admits (env : Env) (K : Standard) : Prop where
  unknown : K.view .unknown
  mate : K.view mateView
  noMate : K.view noMateView
  evasions : ∀ n, 1 ≤ n → n < kInf → K.view ⟨n, 1⟩
  marking : env.settings.paperGhiMode = true → ∀ n, K.view ⟨n, 1⟩
  summary : ∀ orNode views, (∀ v ∈ views, K.view v) → K.pass orNode views →
    K.view (summarize orNode env.settings.pnDn views).view
  best : ∀ orNode views, (∀ v ∈ views, K.view v) → K.pass orNode views →
    (summarize orNode env.settings.pnDn views).terminal = false → ¬ K.badIndex →
    ∃ i c, (summarize orNode env.settings.pnDn views).best = some i ∧ views[i]? = some c

/-! ## What a search reads -/

section Read

variable {env : Env} {K : Standard} {st : SearchState}

theorem Meets.view_ttView (h : Meets K st) (hK : Admits env K) {hash : BitVec 64} {ply : Nat} :
    K.view ((st.ttView hash ply).getD .unknown) := by
  rw [SearchState.ttView]
  cases hprobe : st.tt.probe hash ply with
  | none => exact hK.unknown
  | some x => exact h.entries.probe hprobe

theorem Meets.view_lookupChild (h : Meets K st) (hK : Admits env K) {useDominance : Bool}
    {hash boardKey : BitVec 64} {ply : Nat} {attackerHand : Hand} :
    K.view (st.lookupChild useDominance hash ply boardKey attackerHand).view := by
  have htt : K.view ((st.ttView hash ply).getD .unknown) := h.view_ttView hK
  rw [SearchState.lookupChild]
  cases ho : st.findOverride hash with
  | some o => exact h.overrides o (List.mem_of_find?_eq_some ho)
  | none =>
    simp only
    split
    · exact htt
    · split
      · split
        · exact hK.mate
        · split
          · exact hK.noMate
          · exact htt
      · exact htt

/-- What the search reads of a child is up to the standard. -/
theorem Meets.view_childView (h : Meets K st) (hK : Admits env K) {ply : Nat} {c : Child} :
    K.view (env.childView st ply c).view := by
  rw [Env.childView]
  split
  · exact h.view_ttView hK
  · exact h.view_lookupChild hK

theorem Meets.view_refresh (h : Meets K st) (hK : Admits env K) {nd : Node} {p : Pass}
    (hp : ∀ v ∈ p.views, K.view v.view) : ∀ v ∈ env.refresh st nd p, K.view v.view := by
  intro v hv
  rw [Env.refresh] at hv
  split at hv
  · obtain ⟨c, -, rfl⟩ := List.mem_map.mp hv
    exact h.view_childView hK
  · cases hi : p.refreshOnly.bind fun i => nd.children[i]?.map fun c => (i, c) with
    | none =>
      rw [hi] at hv
      exact hp v hv
    | some ic =>
      rw [hi] at hv
      rcases List.mem_or_eq_of_mem_set hv with hv | rfl
      · exact hp v hv
      · exact h.view_childView hK

end Read

open Env

section Views

variable {env : Env} {K : Standard} {pre : Prop} {α : Type}

/-- A change of the rest of the state. -/
theorem upholds_frame {g : SearchState → α × SearchState} (htt : ∀ s, (g s).2.tt = s.tt)
    (ho : ∀ s, (g s).2.overrides = s.overrides) (hs : ∀ s, (g s).2.summaries = s.summaries) :
    (watch K).Upholds pre (modifyGet g) fun _ => True := by
  refine Monitor.upholds_modifyGet (fun s h => ?_) fun s _ _ h => ⟨⟨?_, ?_, ?_, ?_⟩, True.intro⟩
  · have hclear : ∀ call ∈ (g s).2.summaries, K.pass call.1 call.2 := h
    rwa [hs] at hclear
  · rw [htt]
    exact h.sane
  · rw [htt]
    exact h.entries
  · rw [ho]
    exact h.overrides
  · rw [hs]
    exact h.summaries

theorem upholds_doMove {m : Move} {g : Option Bool} :
    (watch K).Upholds pre (doMove m g) fun _ => True :=
  upholds_frame (fun _ => rfl) (fun _ => rfl) fun _ => rfl

theorem upholds_undoMove {m : Move} {undo : UndoInfo} :
    (watch K).Upholds pre (undoMove m undo) fun _ => True :=
  upholds_frame (fun _ => rfl) (fun _ => rfl) fun _ => rfl

theorem upholds_pushHash {hash : BitVec 64} :
    (watch K).Upholds pre (pushHash hash) fun _ => True :=
  upholds_frame (fun _ => rfl) (fun _ => rfl) fun _ => rfl

theorem upholds_popHash : (watch K).Upholds pre popHash fun _ => True :=
  upholds_frame (fun _ => rfl) (fun _ => rfl) fun _ => rfl

theorem upholds_loadStop : (watch K).Upholds pre env.loadStop fun _ => True :=
  upholds_frame (fun _ => rfl) (fun _ => rfl) fun _ => rfl

theorem upholds_clockPassed {clock : Nat → Bool} :
    (watch K).Upholds pre (clockPassed clock) fun _ => True :=
  upholds_frame (fun _ => rfl) (fun _ => rfl) fun _ => rfl

theorem upholds_ask_of {f : ShogiBoard → α} :
    (watch K).Upholds pre (ask f) fun a => ∃ b, a = f b :=
  Monitor.upholds_get.bind fun s => Monitor.upholds_pure fun _ => ⟨s.board, rfl⟩

theorem upholds_ask {f : ShogiBoard → α} : (watch K).Upholds pre (ask f) fun _ => True :=
  upholds_ask_of.weaken id fun _ _ _ => True.intro

theorem upholds_shouldStop : (watch K).Upholds pre env.shouldStop fun _ => True := by
  unfold shouldStop
  refine upholds_loadStop.bind fun stop => .ite (Monitor.upholds_pure fun _ => True.intro) ?_
  refine Monitor.upholds_get.bind fun s => .ite (Monitor.upholds_pure fun _ => True.intro) ?_
  cases env.deadline with
  | none => exact Monitor.upholds_pure fun _ => True.intro
  | some clock =>
    refine (upholds_frame (fun _ => rfl) (fun _ => rfl) fun _ => rfl).bind fun _ => ?_
    refine Monitor.upholds_get.bind fun s => .ite ?_ (Monitor.upholds_pure fun _ => True.intro)
    refine upholds_clockPassed.bind fun passed => .ite ?_ (Monitor.upholds_pure fun _ => True.intro)
    exact (upholds_frame (fun _ => rfl) (fun _ => rfl) fun _ => rfl).bind fun _ =>
      Monitor.upholds_pure fun _ => True.intro

/-! ### Stored views -/

/-- A change of the table that keeps it sane and its live entries up to the standard. -/
theorem upholds_table {g : BnsTT → α × BnsTT}
    (h : ∀ t : BnsTT, pre → t.Sane → t.Holds (fun e => K.view e.view) →
      (g t).2.Sane ∧ (g t).2.Holds fun e => K.view e.view) :
    (watch K).Upholds pre (modifyGet fun s : SearchState => ((g s.tt).1, { s with tt := (g s.tt).2 }))
      fun _ => True := by
  refine Monitor.upholds_modifyGet (fun s hc => hc) fun s hpre _ hgood => ⟨?_, True.intro⟩
  obtain ⟨hsane, hentries⟩ := h s.tt hpre hgood.sane hgood.entries
  exact ⟨hsane, hentries, hgood.overrides, hgood.summaries⟩

theorem Admits.upholds_storeEntry (hK : Admits env K) {hash : BitVec 64} {ply : Nat}
    {cached : Option Nat} : (watch K).Upholds pre (storeEntry hash ply cached) fun _ => True := by
  refine @upholds_table K pre Nat (fun t => ((t.store hash ply cached).2, (t.store hash ply cached).1))
    fun t _ hs ht => ⟨hs.store, ?_⟩
  exact BnsTT.holds_store ht fun _ => hK.unknown

theorem Admits.upholds_probeOrStoreEntry (hK : Admits env K) {hash : BitVec 64} {kply : Nat} :
    (watch K).Upholds pre (probeOrStoreEntry hash kply) fun _ => True := by
  refine @upholds_table K pre (Nat × Bool)
    (fun t => ((t.probeOrStore hash kply).2, (t.probeOrStore hash kply).1))
    fun t _ hs ht => ⟨hs.probeOrStore, ?_⟩
  exact BnsTT.holds_probeOrStore ht fun _ => hK.unknown

theorem upholds_setEntry {x : Nat} {v : ChildView} (hv : pre → K.view v) :
    (watch K).Upholds pre (setEntry x v) fun _ => True := by
  refine @upholds_table K pre PUnit (fun t => (⟨⟩, t.setView x v)) fun t hpre hs ht => ⟨hs.setView, ?_⟩
  exact BnsTT.holds_setView ht fun _ => hv hpre

theorem Admits.upholds_recordVerdict (hK : Admits env K) {hash : BitVec 64} {ply : Nat}
    {v : ChildView} {tainted : Bool} {anchorPly : Int} {kind : TaintKind} {boardKey : BitVec 64}
    {attackerHand : Hand} {cachedEntry : Option Nat} (hv : pre → K.view v) :
    (watch K).Upholds pre (env.recordVerdict hash ply v tainted anchorPly kind boardKey attackerHand
      cachedEntry) fun _ => True := by
  unfold recordVerdict
  refine .ite ?_ ?_
  · refine Monitor.upholds_modify (fun s hc => hc) fun s hpre _ hgood =>
      ⟨hgood.sane, hgood.entries, ?_, hgood.summaries⟩
    intro o ho
    rcases List.mem_cons.mp ho with rfl | ho
    · exact hv hpre.1
    · exact hgood.overrides o ho
  · refine hK.upholds_storeEntry.bind fun e => ?_
    refine (upholds_setEntry fun hpre => hv hpre.1.1).bind fun _ => .ite ?_ ?_
    · exact upholds_frame (fun _ => rfl) (fun _ => rfl) fun _ => rfl
    · exact Monitor.upholds_pure fun _ => True.intro

theorem upholds_dropOverridesAtReturn {ply : Nat} :
    (watch K).Upholds pre (dropOverridesAtReturn ply) fun _ => True := by
  refine Monitor.upholds_modify (fun s hc => hc) fun s _ _ hgood =>
    ⟨hgood.sane, hgood.entries, ?_, hgood.summaries⟩
  exact fun o ho => hgood.overrides o (List.mem_filter.mp ho).1

/-! ### The moves of a node -/

theorem upholds_checkingMoves {ply : Nat} :
    (watch K).Upholds pre (checkingMoves ply) fun _ => True := by
  unfold checkingMoves
  refine Monitor.upholds_get.bind fun s => ?_
  cases (if ply = 0 then s.rootProbeMoves else none) with
  | none => exact Monitor.upholds_pure fun _ => True.intro
  | some moves =>
    exact (upholds_frame (fun _ => rfl) (fun _ => rfl) fun _ => rfl).bind fun _ =>
      Monitor.upholds_pure fun _ => True.intro

theorem upholds_orMoves {ply : Nat} : (watch K).Upholds pre (env.orMoves ply) fun _ => True := by
  unfold orMoves
  refine upholds_checkingMoves.bind fun moves => .ite ?_ ?_
  · exact upholds_ask
  · exact Monitor.upholds_pure fun _ => True.intro

theorem Admits.upholds_freshMoves (hK : Admits env K) {orNode firstVisit : Bool} {hash bkey : BitVec 64} {ply own : Nat}
    {ahand : Hand} :
    (watch K).Upholds pre (env.freshMoves orNode firstVisit hash ply bkey ahand own)
      fun _ => True := by
  unfold freshMoves
  have hrecord : ∀ {pre : Prop} {v : ChildView}, K.view v → (watch K).Upholds pre (do
      env.recordVerdict hash (env.keyPly ply) v false 0 .path bkey ahand (some own)
      return none : SearchM (Option MoveList)) fun _ => True := fun hv =>
    (hK.upholds_recordVerdict fun _ => hv).bind fun _ => Monitor.upholds_pure fun _ => True.intro
  refine .ite (upholds_ask.bind fun mate => .ite (hrecord hK.mate) ?_)
    (upholds_ask.bind fun moves => .ite (hrecord hK.mate) ?_)
  · refine upholds_orMoves.bind fun moves => .ite (hrecord hK.noMate) ?_
    exact Monitor.upholds_pure fun _ => True.intro
  · exact Monitor.upholds_pure fun _ => True.intro

theorem upholds_cachedMoves {hash : BitVec 64} {kply : Nat} :
    (watch K).Upholds pre (cachedMoves hash kply) fun _ => True := by
  unfold cachedMoves
  refine Monitor.upholds_get.bind fun s => .ite ?_ ?_
  · exact Monitor.upholds_pure fun _ => True.intro
  · exact Monitor.upholds_pure fun _ => True.intro

theorem upholds_cacheMoves {hash : BitVec 64} {kply : Nat} {moves : List (Move × BitVec 64)} :
    (watch K).Upholds pre (cacheMoves hash kply moves) fun _ => True := by
  refine upholds_frame (fun s => ?_) (fun s => ?_) fun s => ?_
  all_goals
    simp only
    split <;> rfl

theorem Admits.upholds_frameOf (hK : Admits env K) {orNode firstVisit : Bool} {hash bkey : BitVec 64} {ply own : Nat}
    {ahand : Hand} :
    (watch K).Upholds pre (env.frame orNode firstVisit hash ply bkey ahand own) fun _ => True := by
  unfold frame
  refine upholds_cachedMoves.bind fun cached => ?_
  cases cached with
  | some moves => exact upholds_ask.bind fun _ => Monitor.upholds_pure fun _ => True.intro
  | none =>
    refine hK.upholds_freshMoves.bind fun moves => ?_
    cases moves with
    | none => exact Monitor.upholds_pure fun _ => True.intro
    | some moves =>
      refine upholds_ask.bind fun moves => upholds_cacheMoves.bind fun _ => ?_
      exact upholds_ask.bind fun _ => Monitor.upholds_pure fun _ => True.intro

/-! ### The new-node block -/

theorem Admits.upholds_allMatedInOne (hK : Admits env K) {gply : Nat} {moves : MoveList} :
    (watch K).Upholds pre (env.allMatedInOne gply moves) fun _ => True := by
  induction moves generalizing pre with
  | nil => exact Monitor.upholds_pure fun _ => True.intro
  | cons m rest ih =>
    unfold allMatedInOne
    refine upholds_doMove.bind fun u => upholds_ask.bind fun mate => .ite ?_ ?_
    · refine upholds_ask.bind fun hash => ?_
      refine (hK.upholds_recordVerdict fun _ => hK.mate).bind fun _ => ?_
      exact upholds_undoMove.bind fun _ => ih
    · exact upholds_undoMove.bind fun _ => Monitor.upholds_pure fun _ => True.intro

theorem Admits.upholds_childAllMated (hK : Admits env K) {gply : Nat} {ev : MoveList} :
    (watch K).Upholds pre (env.childAllMated gply ev)
      fun mated => mated = false → ev.isEmpty = false := by
  unfold childAllMated
  refine .ite (Monitor.upholds_pure fun _ h => by cases h) ?_
  exact hK.upholds_allMatedInOne.weaken id fun _ hpre _ _ => Bool.not_eq_true _ ▸ hpre.2

/-- The number of evasions is a count. -/
theorem Admits.view_evasions (hK : Admits env K) {b : ShogiBoard}
    (h : b.generateEvasionMoves.isEmpty = false) : K.view ⟨b.generateEvasionMoves.length, 1⟩ := by
  refine hK.evasions _ (List.length_pos_iff.mpr fun hnil => ?_) b.length_generateEvasionMoves_lt
  rw [hnil] at h
  cases h

theorem upholds_initChild {ce n : Nat} (hv : pre → K.view ⟨n, 1⟩) :
    (watch K).Upholds pre (initChild ce n) fun _ => True := by
  unfold initChild
  refine Monitor.upholds_get.bind fun s => .ite ?_ (Monitor.upholds_pure fun _ => True.intro)
  exact upholds_setEntry fun hpre => hv hpre.1.1

theorem Admits.upholds_newNodeLoop (hK : Admits env K) {ply own : Nat} {hash bkey : BitVec 64} {ahand : Hand}
    {children : List Child} :
    (watch K).Upholds pre (env.newNodeLoop ply hash bkey ahand own children) fun _ => True := by
  induction children generalizing pre with
  | nil => exact Monitor.upholds_pure fun _ => True.intro
  | cons c rest ih =>
    unfold newNodeLoop
    refine upholds_doMove.bind fun u => upholds_ask_of.bind fun ev => ?_
    refine hK.upholds_childAllMated.bind fun mated => upholds_undoMove.bind fun _ => .ite ?_ ?_
    · refine (hK.upholds_recordVerdict fun _ => hK.mate).bind fun _ => ?_
      refine (hK.upholds_recordVerdict fun _ => hK.mate).bind fun _ => ?_
      exact Monitor.upholds_pure fun _ => True.intro
    · refine hK.upholds_storeEntry.bind fun e => (upholds_initChild fun hpre => ?_).bind fun _ => ih
      obtain ⟨⟨⟨⟨⟨-, b, rfl⟩, hev⟩, -⟩, hno⟩, -⟩ := hpre
      exact hK.view_evasions (hev (Bool.not_eq_true _ ▸ hno))

theorem Admits.upholds_newNodeBlock (hK : Admits env K) {orNode firstVisit : Bool} {ply own : Nat} {hash bkey : BitVec 64}
    {ahand : Hand} {children : List Child} :
    (watch K).Upholds pre (env.newNodeBlock orNode firstVisit ply hash bkey ahand own children)
      fun _ => True :=
  .ite hK.upholds_newNodeLoop (Monitor.upholds_pure fun _ => True.intro)

/-! ### The loop -/

theorem Admits.upholds_recordTerminal (hK : Admits env K) {nd : Node} {views : List SourcedView} {s : Summary} {own : Nat}
    (hv : pre → K.view s.view) :
    (watch K).Upholds pre (env.recordTerminal nd views s own) fun _ => True := by
  unfold recordTerminal
  refine Monitor.upholds_get.bind fun st => .ite ?_ ?_
  · exact hK.upholds_recordVerdict fun hpre => hv hpre.1.1
  · exact hK.upholds_recordVerdict fun hpre => hv hpre.1.1

theorem Admits.upholds_ownEntryOf (hK : Admits env K) {nd : Node} {own : Nat} :
    (watch K).Upholds pre (env.ownEntryOf nd own) fun _ => True := by
  unfold ownEntryOf
  exact Monitor.upholds_get.bind fun st =>
    .ite hK.upholds_storeEntry (Monitor.upholds_pure fun _ => True.intro)

theorem Admits.upholds_storeUnresolved (hK : Admits env K) {nd : Node} {s : Summary} {own : Nat} (hv : pre → K.view s.view) :
    (watch K).Upholds pre (env.storeUnresolved nd s own) fun _ => True := by
  unfold storeUnresolved
  refine hK.upholds_ownEntryOf.bind fun e => ?_
  refine (upholds_setEntry fun hpre => hv hpre.1).bind fun _ => .ite ?_ ?_
  · refine (@upholds_table K _ PUnit (fun t => (⟨⟩, t.incrementEffort e)) fun t _ hs ht =>
      ⟨hs.incrementEffort, ?_⟩).bind fun _ => Monitor.upholds_pure fun _ => True.intro
    exact ht.incrementEffort
  · exact Monitor.upholds_pure fun _ => True.intro

theorem Admits.view_repetitionView (hK : Admits env K) {orNode : Bool} {rep : RepetitionResult} :
    K.view (repetitionView orNode rep) := by
  rw [repetitionView]
  by_cases h : rep = if orNode then .loss else .win
  · rw [if_pos h]
    exact hK.mate
  · rw [if_neg h]
    exact hK.noMate

theorem Admits.upholds_routeTerminal (hK : Admits env K) {nd : Node} {chash : BitVec 64} :
    (watch K).Upholds pre (env.routeTerminal nd chash) fun _ => True := by
  unfold routeTerminal
  have hrecord : ∀ {pre : Prop} {v : ChildView} {tainted : Bool} {anchor : Int} {kind : TaintKind},
      K.view v → (watch K).Upholds pre (do
        env.recordVerdict chash (env.keyPly (nd.ply + 1)) v tainted anchor kind 0#64 .empty none
        return true : SearchM Bool) fun _ => True := fun hv =>
    (hK.upholds_recordVerdict fun _ => hv).bind fun _ => Monitor.upholds_pure fun _ => True.intro
  refine .ite ?_ (upholds_ask.bind fun rep => .ite ?_ (.ite ?_ ?_))
  · exact (upholds_frame (fun _ => rfl) (fun _ => rfl) fun _ => rfl).bind fun _ =>
      hrecord hK.noMate
  · exact .ite (hrecord hK.view_repetitionView) (hrecord hK.view_repetitionView)
  · exact Monitor.upholds_pure fun _ => True.intro
  · refine Monitor.upholds_get.bind fun st => ?_
    cases scanPath chash (List.drop (if env.settings.disableRuleRepetition = true then 0
      else kRepetitionLookbackPly) st.pathHashes) with
    | none => exact Monitor.upholds_pure fun _ => True.intro
    | some idx => exact hrecord hK.noMate

theorem upholds_limitReached : (watch K).Upholds pre env.limitReached fun _ => True := by
  unfold limitReached
  exact Monitor.upholds_get.bind fun st =>
    .ite (Monitor.upholds_pure fun _ => True.intro) upholds_shouldStop

theorem upholds_stoppedBelow : (watch K).Upholds pre env.stoppedBelow fun _ => True := by
  unfold stoppedBelow
  exact Monitor.upholds_get.bind fun st =>
    .ite (Monitor.upholds_pure fun _ => True.intro) upholds_loadStop

/-- The record of a pass: if the watch goes on, the pass is as required. -/
theorem upholds_record {orNode : Bool} {views : List ChildView}
    (hv : pre → ∀ v ∈ views, K.view v) :
    (watch K).Upholds pre (modify fun st : SearchState => { st with
      summaries := (orNode, views) :: st.summaries } : SearchM Unit)
      fun _ => K.pass orNode views := by
  refine Monitor.upholds_modifyGet (fun s hc call hcall => hc call (List.mem_cons_of_mem _ hcall))
    fun s hpre hc hgood =>
      ⟨⟨hgood.sane, hgood.entries, hgood.overrides, ?_⟩, hc (orNode, views) List.mem_cons_self⟩
  intro call hcall
  rcases List.mem_cons.mp hcall with rfl | hcall
  · exact hv hpre
  · exact hgood.summaries call hcall

/-- What a pass descends to is there. -/
theorem exists_selectedChild {nd : Node} {views : List SourcedView} {s : Summary}
    (hlength : views.length = nd.children.length)
    (h : ∃ i c, s.best = some i ∧ (views.map SourcedView.view)[i]? = some c) :
    ∃ ivc, selectedChild nd views s = some ivc := by
  obtain ⟨i, c, hbest, hi⟩ := h
  have hlt : i < views.length := by
    obtain ⟨hlt, -⟩ := List.getElem?_eq_some_iff.mp hi
    rwa [List.length_map] at hlt
  refine ⟨(i, views[i], nd.children.get ⟨i, hlength ▸ hlt⟩), ?_⟩
  rw [selectedChild, hbest, Option.bind_some, List.getElem?_eq_getElem hlt, Option.bind_some,
    List.getElem?_eq_getElem (hlength ▸ hlt)]
  rfl

theorem length_refresh {st : SearchState} {nd : Node} {p : Pass}
    (h : p.refreshOnly = none ∨ p.views.length = nd.children.length) :
    (env.refresh st nd p).length = nd.children.length := by
  rw [Env.refresh]
  split
  · exact List.length_map _
  · rename_i hno
    have hlength : p.views.length = nd.children.length := by
      rcases h with h | h
      · rw [h] at hno
        exact absurd rfl hno
      · exact h
    cases p.refreshOnly.bind fun i => nd.children[i]?.map fun c => (i, c) with
    | none => exact hlength
    | some ic => exact (List.length_set ..).trans hlength

/-- What a pass starts from: views up to the standard, one for each child unless all are read
again. -/
def Ready (K : Standard) (nd : Node) (p : Pass) : Prop :=
  (∀ v ∈ p.views, K.view v.view) ∧ (p.refreshOnly = none ∨ p.views.length = nd.children.length)

theorem Admits.upholds_paperMarking (hK : Admits env K) {nd : Node} {th : Nat × Nat} :
    (watch K).Upholds pre (env.paperMarking nd th) fun _ => True := by
  rw [paperMarking]
  cases hpaper : env.settings.paperGhiMode with
  | false =>
    rw [if_neg Bool.false_ne_true]
    exact Monitor.upholds_pure fun _ => True.intro
  | true =>
    rw [if_pos rfl]
    refine Monitor.upholds_get.bind fun st => ?_
    cases st.tt.probe nd.hash 0 with
    | none => exact Monitor.upholds_pure fun _ => True.intro
    | some e =>
      refine (upholds_setEntry fun _ => hK.marking hpaper _).bind fun _ => ?_
      exact Monitor.upholds_pure fun _ => True.intro

theorem upholds_visitChild {nd : Node} {sub : Nat → Nat → SearchM Unit} {c : Child} {th : Nat × Nat}
    {undo : UndoInfo} (hsub : ∀ {pre : Prop} a b, (watch K).Upholds pre (sub a b) fun _ => True) :
    (watch K).Upholds pre (env.visitChild nd sub c th undo) fun _ => True := by
  unfold visitChild
  refine upholds_pushHash.bind fun _ => (hsub _ _).bind fun _ => upholds_popHash.bind fun _ => ?_
  exact upholds_undoMove.bind fun _ => upholds_dropOverridesAtReturn.bind fun _ =>
    upholds_stoppedBelow

theorem Admits.upholds_searchLoop (hK : Admits env K) {nd : Node}
    {sub : Nat → Nat → SearchM Unit}
    (hsub : ∀ {pre : Prop} a b, (watch K).Upholds pre (sub a b) fun _ => True) {fuel : Nat} {p : Pass}
    (hp : pre → Ready K nd p) :
    (watch K).Upholds pre (env.searchLoop nd sub fuel p) fun _ => True := by
  induction fuel generalizing pre p with
  | zero => exact Monitor.upholds_throw fun _ h => by cases h
  | succ fuel ih =>
    unfold searchLoop
    refine Monitor.upholds_get.bind fun st => ?_
    set views := env.refresh st nd p with hviews
    have hview : pre ∧ (watch K).good st → ∀ v ∈ views, K.view v.view :=
      fun h => Meets.view_refresh h.2 hK (hp h.1).1
    have hlength : pre ∧ (watch K).good st → views.length = nd.children.length :=
      fun h => length_refresh (hp h.1).2
    refine (upholds_record fun h => List.forall_mem_map.mpr (hview h)).bind fun _ => ?_
    set s := summarize nd.orNode env.settings.pnDn (views.map SourcedView.view) with hs
    have hsummary : (pre ∧ (watch K).good st) ∧ K.pass nd.orNode (views.map SourcedView.view) →
        K.view s.view := fun h =>
      hK.summary _ _ (List.forall_mem_map.mpr (hview h.1)) h.2
    refine .ite (hK.upholds_recordTerminal fun h => hsummary h.1) ?_
    refine (hK.upholds_storeUnresolved fun h => hsummary h.1).bind fun own => ?_
    refine .ite (Monitor.upholds_pure fun _ => True.intro) ?_
    refine upholds_limitReached.bind fun stopped => .ite ?_ ?_
    · exact upholds_frame (fun _ => rfl) (fun _ => rfl) fun _ => rfl
    · cases hchild : selectedChild nd views s with
      | none =>
        refine Monitor.upholds_throw fun h _ => ?_
        -- the summary is not terminal, so its best child is there
        obtain ⟨⟨⟨⟨⟨hrec, hnot⟩, -⟩, -⟩, -⟩, -⟩ := h
        by_contra hbad
        obtain ⟨ivc, hsome⟩ := exists_selectedChild (hlength hrec.1)
          (hK.best _ _ (List.forall_mem_map.mpr (hview hrec.1)) hrec.2 (Bool.not_eq_true _ ▸ hnot)
            hbad)
        rw [hchild] at hsome
        cases hsome
      | some ivc =>
        obtain ⟨i, v, c⟩ := ivc
        refine hK.upholds_paperMarking.bind fun th => upholds_doMove.bind fun undo => ?_
        refine hK.upholds_routeTerminal.bind fun handled => .ite ?_ ?_
        · refine upholds_undoMove.bind fun _ => ih fun h => ?_
          obtain ⟨⟨⟨⟨⟨⟨⟨⟨⟨⟨hrec, -⟩, -⟩, -⟩, -⟩, -⟩, -⟩, -⟩, -⟩, -⟩, -⟩ := h
          exact ⟨hview hrec.1, Or.inr (hlength hrec.1)⟩
        · refine (upholds_visitChild hsub).bind fun stopped => .ite ?_ (ih fun h => ?_)
          · exact Monitor.upholds_pure fun _ => True.intro
          · obtain ⟨⟨⟨⟨⟨⟨⟨⟨⟨⟨⟨hrec, -⟩, -⟩, -⟩, -⟩, -⟩, -⟩, -⟩, -⟩, -⟩, -⟩, -⟩ := h
            exact ⟨hview hrec.1, Or.inr (hlength hrec.1)⟩

theorem Admits.upholds_searchImpl (hK : Admits env K) {fuel : Nat}
    {orNode : Bool} {abnTh obnTh ply : Nat} :
    (watch K).Upholds pre (env.searchImpl fuel orNode abnTh obnTh ply) fun _ => True := by
  induction fuel generalizing pre orNode abnTh obnTh ply with
  | zero => exact Monitor.upholds_throw fun _ h => by cases h
  | succ fuel ih =>
    unfold searchImpl
    refine (upholds_frame (fun _ => rfl) (fun _ => rfl) fun _ => rfl).bind fun _ => ?_
    refine upholds_ask.bind fun hash => hK.upholds_probeOrStoreEntry.bind fun own => ?_
    refine Monitor.upholds_get.bind fun st => upholds_ask.bind fun bkey => ?_
    refine upholds_ask.bind fun ahand => hK.upholds_frameOf.bind fun children => ?_
    cases children with
    | none => exact Monitor.upholds_pure fun _ => True.intro
    | some children =>
      refine hK.upholds_newNodeBlock.bind fun decided => .ite ?_ ?_
      · exact Monitor.upholds_pure fun _ => True.intro
      · refine hK.upholds_searchLoop (fun a b => ih) fun _ => ⟨?_, Or.inl rfl⟩
        exact fun v hv => absurd hv List.not_mem_nil

/-! ### The line of a short mate and the principal variation -/

theorem upholds_matedAfter {approx : Bool} {moves : MoveList} {last : Option (Move × Move)} :
    (watch K).Upholds pre (env.matedAfter approx moves last) fun _ => True := by
  induction moves generalizing pre last with
  | nil => exact Monitor.upholds_pure fun _ => True.intro
  | cons m2 rest ih =>
    unfold matedAfter mateAfterEvasion
    refine upholds_doMove.bind fun u2 => upholds_ask.bind fun m3 => upholds_undoMove.bind fun _ => ?_
    cases m3 with
    | none => exact Monitor.upholds_pure fun _ => True.intro
    | some m3 => exact ih

theorem upholds_lineAmong {approx : Bool} {moves : MoveList} :
    (watch K).Upholds pre (env.lineAmong approx moves) fun _ => True := by
  induction moves generalizing pre with
  | nil => exact Monitor.upholds_pure fun _ => True.intro
  | cons m1 rest ih =>
    unfold lineAmong
    refine upholds_doMove.bind fun u1 => upholds_ask.bind fun rep => .ite ?_ ?_
    · exact upholds_undoMove.bind fun _ => ih
    · refine upholds_ask.bind fun ev => .ite ?_ ?_
      · exact upholds_undoMove.bind fun _ => Monitor.upholds_pure fun _ => True.intro
      · refine upholds_matedAfter.bind fun mated => upholds_undoMove.bind fun _ => ?_
        cases mated with
        | none => exact ih
        | some mm => exact Monitor.upholds_pure fun _ => True.intro

theorem upholds_pvChecks {sub : SearchM Line}
    (hsub : ∀ {pre : Prop}, (watch K).Upholds pre sub fun _ => True) {moves : MoveList}
    {best : Line} : (watch K).Upholds pre (env.pvChecks sub moves best) fun _ => True := by
  induction moves generalizing pre best with
  | nil => exact Monitor.upholds_pure fun _ => True.intro
  | cons m rest ih =>
    unfold pvChecks
    refine (upholds_frame (fun _ => rfl) (fun _ => rfl) fun _ => rfl).bind fun _ => ?_
    refine Monitor.upholds_get.bind fun st => .ite ih ?_
    refine upholds_ask.bind fun chash => upholds_doMove.bind fun undo => ?_
    refine upholds_ask.bind fun rep => .ite (upholds_undoMove.bind fun _ => ih) ?_
    refine upholds_pushHash.bind fun _ => hsub.bind fun line => upholds_popHash.bind fun _ => ?_
    refine upholds_undoMove.bind fun _ => ?_
    cases line with
    | none => exact ih
    | some dl =>
      exact .ite (.ite (Monitor.upholds_pure fun _ => True.intro) ih) ih

theorem upholds_pvEvasions {sub : SearchM Line}
    (hsub : ∀ {pre : Prop}, (watch K).Upholds pre sub fun _ => True) {moves : MoveList}
    {best : Line} : (watch K).Upholds pre (pvEvasions sub moves best) fun _ => True := by
  induction moves generalizing pre best with
  | nil => exact Monitor.upholds_pure fun _ => True.intro
  | cons m rest ih =>
    unfold pvEvasions
    refine (upholds_frame (fun _ => rfl) (fun _ => rfl) fun _ => rfl).bind fun _ => ?_
    refine upholds_ask.bind fun chash => upholds_doMove.bind fun undo => ?_
    refine upholds_pushHash.bind fun _ => hsub.bind fun line => upholds_popHash.bind fun _ => ?_
    refine upholds_undoMove.bind fun _ => ?_
    cases line with
    | none => exact ih
    | some dl => exact .ite ih ih

theorem upholds_frontierLine {checks : MoveList} :
    (watch K).Upholds pre (env.frontierLine checks) fun _ => True := by
  unfold frontierLine extract3PlyLine
  refine .ite (upholds_lineAmong.bind fun line => ?_) (Monitor.upholds_pure fun _ => True.intro)
  cases line with
  | none => exact Monitor.upholds_pure fun _ => True.intro
  | some line => exact Monitor.upholds_pure fun _ => True.intro

theorem Admits.upholds_research (hK : Admits env K) {fuel ply : Nat} :
    (watch K).Upholds pre (env.research fuel ply) fun _ => True := by
  unfold research
  refine (upholds_frame (fun _ => rfl) (fun _ => rfl) fun _ => rfl).bind fun _ => ?_
  refine (hK.upholds_searchImpl).bind fun _ => ?_
  exact upholds_frame (fun _ => rfl) (fun _ => rfl) fun _ => rfl

theorem Admits.upholds_extractPvInner (hK : Admits env K) {fuel depth : Nat}
    {orNode : Bool} :
    (watch K).Upholds pre (env.extractPvInner fuel depth orNode) fun _ => True := by
  induction depth generalizing pre orNode with
  | zero => exact Monitor.upholds_pure fun _ => True.intro
  | succ depth ih =>
    unfold extractPvInner
    refine Monitor.upholds_get.bind fun st => .ite (Monitor.upholds_pure fun _ => True.intro) ?_
    refine .ite (upholds_ask.bind fun m1 => ?_) (upholds_ask.bind fun moves => .ite ?_ ?_)
    · cases m1 with
      | some m1 => exact Monitor.upholds_pure fun _ => True.intro
      | none =>
        refine upholds_ask.bind fun checks => upholds_frontierLine.bind fun line3 => ?_
        cases line3 with
        | some line => exact Monitor.upholds_pure fun _ => True.intro
        | none =>
          refine (upholds_pvChecks ih).bind fun line => ?_
          cases line with
          | some line => exact Monitor.upholds_pure fun _ => True.intro
          | none =>
            refine Monitor.upholds_get.bind fun st => .ite (Monitor.upholds_pure fun _ => True.intro) ?_
            refine (hK.upholds_research).bind fun _ => upholds_ask.bind fun checks => ?_
            exact upholds_pvChecks ih
    · exact Monitor.upholds_pure fun _ => True.intro
    · refine (upholds_pvEvasions ih).bind fun line => ?_
      cases line with
      | none => exact Monitor.upholds_pure fun _ => True.intro
      | some dl => exact Monitor.upholds_pure fun _ => True.intro

theorem Admits.upholds_extractPV (hK : Admits env K) {fuel : Nat} :
    (watch K).Upholds pre (env.extractPV fuel) fun _ => True := by
  unfold extractPV
  refine upholds_ask.bind fun hash => ?_
  refine (upholds_frame (fun _ => rfl) (fun _ => rfl) fun _ => rfl).bind fun _ => ?_
  refine (hK.upholds_extractPvInner).bind fun line => ?_
  refine (upholds_frame (fun _ => rfl) (fun _ => rfl) fun _ => rfl).bind fun _ => ?_
  cases line with
  | none => exact upholds_frame (fun _ => rfl) (fun _ => rfl) fun _ => rfl
  | some dl => exact upholds_frame (fun _ => rfl) (fun _ => rfl) fun _ => rfl

/-! ### The entry point -/

theorem upholds_stopOrDeadline : (watch K).Upholds pre env.stopOrDeadline fun _ => True := by
  unfold stopOrDeadline
  refine upholds_loadStop.bind fun stop => .ite (Monitor.upholds_pure fun _ => True.intro) ?_
  cases env.deadline with
  | none => exact Monitor.upholds_pure fun _ => True.intro
  | some clock => exact upholds_clockPassed

theorem Admits.upholds_rootProbe (hK : Admits env K) {rootHash : BitVec 64} :
    (watch K).Upholds pre (env.rootProbe rootHash) fun _ => True := by
  unfold rootProbe extract3PlyLine
  refine .ite (Monitor.upholds_pure fun _ => True.intro) (upholds_ask.bind fun checks => ?_)
  refine upholds_lineAmong.bind fun line => ?_
  cases line with
  | none =>
    exact (upholds_frame (fun _ => rfl) (fun _ => rfl) fun _ => rfl).bind fun _ =>
      Monitor.upholds_pure fun _ => True.intro
  | some line =>
    refine upholds_stopOrDeadline.bind fun stopped => .ite ?_ ?_
    · exact upholds_popHash.bind fun _ => Monitor.upholds_pure fun _ => True.intro
    · refine hK.upholds_storeEntry.bind fun root => (upholds_setEntry fun _ => hK.mate).bind fun _ => ?_
      refine (upholds_frame (fun _ => rfl) (fun _ => rfl) fun _ => rfl).bind fun _ => ?_
      exact upholds_popHash.bind fun _ => Monitor.upholds_pure fun _ => True.intro

theorem Admits.upholds_searchFromRoot (hK : Admits env K) {fuel : Nat} :
    (watch K).Upholds pre (env.searchFromRoot fuel) fun _ => True := by
  unfold searchFromRoot
  refine upholds_shouldStop.bind fun stop => .ite (Monitor.upholds_pure fun _ => True.intro) ?_
  refine upholds_ask.bind fun rootHash => upholds_pushHash.bind fun _ => ?_
  refine hK.upholds_rootProbe.bind fun answer => ?_
  cases answer with
  | some answer => exact Monitor.upholds_pure fun _ => True.intro
  | none =>
    refine hK.upholds_searchImpl.bind fun _ => upholds_popHash.bind fun _ => ?_
    refine upholds_loadStop.bind fun stop => .ite (Monitor.upholds_pure fun _ => True.intro) ?_
    refine Monitor.upholds_get.bind fun st => .ite ?_ (.ite ?_ ?_)
    · exact hK.upholds_extractPV.bind fun _ => Monitor.upholds_get.bind fun _ =>
        Monitor.upholds_pure fun _ => True.intro
    · exact Monitor.upholds_pure fun _ => True.intro
    · exact Monitor.upholds_pure fun _ => True.intro

end Views

/-! ## Whole runs -/

section Runs

variable {env : Env} {K : Standard} {s : SearchState}

/-- At the start of a search nothing is known, so that every standard is met. -/
theorem meets_reset (h : s.tt.Sane) (board : ShogiBoard) : Meets K (env.reset board s) where
  sane := (h.resize env.settings.ttMb).newSearch
  entries := (h.resize env.settings.ttMb).holds_newSearch
  overrides := fun _ ho => absurd ho List.not_mem_nil
  summaries := fun _ hc => absurd hc List.not_mem_nil

theorem search_eq (fuel : Nat) (board : ShogiBoard) :
    env.search fuel board s = env.searchFromRoot fuel (env.reset board s) := rfl

/-- The standard that every search keeps to. -/
def Standard.none : Standard := ⟨fun _ => True, fun _ _ => True, True⟩

theorem admits_none (env : Env) : Admits env .none where
  unknown := True.intro
  mate := True.intro
  noMate := True.intro
  evasions := fun _ _ _ => True.intro
  marking := fun _ _ => True.intro
  summary := fun _ _ _ _ => True.intro
  best := fun _ _ _ _ _ h => absurd True.intro h

/-- The table of a solver stays usable through all its searches. -/
theorem Reached.sane (h : Reached s) : s.tt.Sane := by
  induction h with
  | new board => exact BnsTT.sane_new
  | search h env fuel board ih =>
    rw [search_eq]
    obtain ⟨-, hmeets⟩ := @Admits.upholds_searchFromRoot env .none True (admits_none env) fuel
      (env.reset board _) fun _ _ => True.intro
    exact (hmeets True.intro (meets_reset ih board)).1.sane
  | setVictimPolicy h p ih => exact ih
  | setUseEffort h v ih => exact ih

/-- Numbers that are verdicts or counts, as long as the sums are counts. -/
def Standard.numbers (pnDn : Bool) : Standard :=
  ⟨ChildView.Valid, fun orNode views => Unsaturated orNode pnDn views, False⟩

theorem admits_numbers (hmode : env.settings.paperGhiMode = false) :
    Admits env (.numbers env.settings.pnDn) where
  unknown := Or.inr (Or.inr (by decide))
  mate := Or.inl rfl
  noMate := Or.inr (Or.inl rfl)
  evasions := fun n hpos hlt => Or.inr (Or.inr ⟨⟨hpos, hlt⟩, le_rfl, (by decide : 1 < kInf)⟩)
  marking := fun h => absurd (hmode.symm.trans h) Bool.false_ne_true
  summary := fun orNode views hviews hpass => ((faithful_summarize_iff hviews).mpr hpass).valid
  best := fun orNode views hviews hpass hterminal _ =>
    let ⟨i, c, hbest, hc, _⟩ := ((faithful_summarize_iff hviews).mpr hpass).best hterminal
    ⟨i, c, hbest, hc⟩

end Runs

end MateBnsSolver

end Shogi
