import Mathlib.Algebra.BigOperators.Ring.Finset
import Mathlib.Data.Fintype.Card
import ShogiEngine.Library.Threads
import ShogiEngine.Usi.TimeManager

/-!
# The search threads and the time controller

The search threads between the launch and the end of `Search::Run`, with the limits that they look at after every
playout and the time controller that they share. `MaybeManageTime` lets one of them at a time, and at most one in 20
milliseconds, show the controller a snapshot of the root; after the join `Run` shows it a last one.

## Main definitions

- `ManageTime`: the steps of `MaybeManageTime`
- `search`: the threads
- `Serialized`: what is seen of the time controller from outside
- `Justifies`: why a snapshot may stop the search

## Main results

- `serialized_of_reach`: the snapshots reach the controller one after the other and in order
- `stopped_of_reach`: when the controller stops the search
- `final_update_of_reach`: the last snapshot is that of `Run`
- `checks_bounded_of_reach`: how many snapshots there are
- `playouts_bounded_of_reach`: by how much the threads miss the node limit
-/

namespace Shogi.ParallelSearch

open TimeControl TimeManager

/-- The entries of `SearchConfig` that bound a search; there may be no time limit. -/
structure SearchConfig where
  maxNodes : Nat
  maxTimeMs : Option Nat
  treeMemoryMb : Nat
  timeBudget : Budget

/-- `MaybeManageTime` does something. -/
def SearchConfig.Managed (cfg : SearchConfig) : Prop :=
  cfg.timeBudget.mode ≠ .off ∧ cfg.timeBudget.hasAdaptiveDeadline = true

/-- `Run`, the search threads and, for the clock and the calls of `Stop`, one more. -/
inductive Party (κ : Type)
  | main
  | searcher (k : κ)
  | outside
  deriving DecidableEq

/-- The memory of `Search`. The last three entries are no part of it: who holds `time_check_busy_`, when the checks
were that passed the interval, and the snapshots that the controller was shown, with `force`. -/
structure Mem (κ F D : Type) where
  stop : Bool
  adaptiveStop : Bool
  treeFull : Bool
  playoutCount : Nat
  elapsedMs : Nat
  lastTimeCheckMs : Int
  timeCheckBusy : Bool
  timeController : TimeController F D
  joined : κ → Bool
  holder : Option (Party κ)
  admitted : List Nat
  updates : List (Bool × RootSearchSnapshot F)

/-- `IsSearchActive`. -/
def isSearchActive {κ F D : Type} (cfg : SearchConfig) (m : Mem κ F D) : Bool :=
  if m.stop then false
  else if m.adaptiveStop then false
  else if m.treeFull then false
  else if 0 < cfg.maxNodes ∧ cfg.maxNodes ≤ m.playoutCount then false
  else if cfg.maxTimeMs.any (· ≤ m.elapsedMs) then false
  else true

/-- Where a call of `MaybeManageTime` stands. -/
inductive ManagePc (F D : Type)
  | enter
  | readClock
  | loadLast (elapsedMs : Nat)
  | casLast (elapsedMs : Nat) (previous : Int)
  | casBusy
  | captureElapsed
  | capturePlayouts (elapsedMs : Int)
  | captureRoot (elapsedMs newPlayouts : Int)
  | readController (snapshot : RootSearchSnapshot F)
  | writeController (snapshot : RootSearchSnapshot F) (before : TimeController F D)
  | decide (shouldStop : Bool)
  | release

inductive SearcherPc (F D : Type)
  | firstCheck
  | check
  | playout
  | backup
  | lookAtTree
  | manageTime (pc : ManagePc F D)
  | done

inductive MainPc (F D : Type)
  | join
  | manageTime (pc : ManagePc F D)
  | managed

/-- A search thread counts its `iterations`. -/
inductive Local (F D : Type)
  | main (pc : MainPc F D)
  | searcher (iterations : Nat) (pc : SearcherPc F D)
  | outside

section Act

variable {κ F D : Type} (cfg : SearchConfig) (fp : FloatOps F D)

/-- The steps of a call of `MaybeManageTime`; without a next place it returns. The root changes while it is read, so
that nothing is said of what `CaptureRootSnapshot` finds there. -/
inductive ManageTime (force : Bool) (i : Party κ) :
    Mem κ F D → ManagePc F D → Mem κ F D → Option (ManagePc F D) → Prop
  | unmanaged {m} (not : ¬cfg.Managed) : ManageTime force i m .enter m none
  | enter {m} (managed : cfg.Managed) : ManageTime force i m .enter m (some .readClock)
  | readClock {m} : ManageTime force i m .readClock m (some (.loadLast m.elapsedMs))
  /-- A relaxed load may find an old value. -/
  | tooSoon {m} {e : Nat} (previous : Int) (regular : force = false) (soon : (e : Int) - previous < 20) :
      ManageTime force i m (.loadLast e) m none
  | loadLast {m} {e : Nat} (previous : Int) (late : force = true ∨ 20 ≤ (e : Int) - previous) :
      ManageTime force i m (.loadLast e) m (some (.casLast e previous))
  | casLast {m e previous} (same : m.lastTimeCheckMs = previous) :
      ManageTime force i m (.casLast e previous)
        { m with
          lastTimeCheckMs := e
          admitted := if force then m.admitted else m.admitted ++ [e] } (some .casBusy)
  | overtaken {m e previous} (other : m.lastTimeCheckMs ≠ previous) (regular : force = false) :
      ManageTime force i m (.casLast e previous) m none
  | forced {m e previous} (other : m.lastTimeCheckMs ≠ previous) (last : force = true) :
      ManageTime force i m (.casLast e previous) m (some .casBusy)
  | busy {m} (busy : m.timeCheckBusy = true) : ManageTime force i m .casBusy m none
  | acquire {m} (free : m.timeCheckBusy = false) :
      ManageTime force i m .casBusy { m with timeCheckBusy := true, holder := some i } (some .captureElapsed)
  | captureElapsed {m} : ManageTime force i m .captureElapsed m (some (.capturePlayouts m.elapsedMs))
  | capturePlayouts {m e} : ManageTime force i m (.capturePlayouts e) m (some (.captureRoot e m.playoutCount))
  | captureRoot {m e p} {s : RootSearchSnapshot F} (elapsed : s.elapsedMs = e) (playouts : s.newPlayouts = p) :
      ManageTime force i m (.captureRoot e p) m (some (.readController s))
  | readController {m s} :
      ManageTime force i m (.readController s) m (some (.writeController s m.timeController))
  | writeController {m s} {t : TimeController F D} :
      ManageTime force i m (.writeController s t)
        { m with
          timeController := t.update fp s
          updates := m.updates ++ [(force, s)] } (some (.decide (t.update fp s).decision.shouldStop))
  | decide {m shouldStop} :
      ManageTime force i m (.decide shouldStop)
        { m with adaptiveStop := m.adaptiveStop || (cfg.timeBudget.mode = .on && shouldStop) } (some .release)
  | release {m} : ManageTime force i m .release { m with timeCheckBusy := false, holder := none } none

/-- The steps of the threads. -/
inductive Act [DecidableEq κ] : Party κ → Mem κ F D → Local F D → Mem κ F D → Local F D → Prop
  | firstActive {m k n} (active : isSearchActive cfg m = true) :
      Act (.searcher k) m (.searcher n .firstCheck) m (.searcher n .check)
  | firstInactive {m k n} (inactive : isSearchActive cfg m = false) :
      Act (.searcher k) m (.searcher n .firstCheck) { m with joined := Function.update m.joined k true }
        (.searcher n .done)
  | active {m k n} (active : isSearchActive cfg m = true) :
      Act (.searcher k) m (.searcher n .check) m (.searcher n .playout)
  | inactive {m k n} (inactive : isSearchActive cfg m = false) :
      Act (.searcher k) m (.searcher n .check) { m with joined := Function.update m.joined k true }
        (.searcher n .done)
  | discarded {m k n} : Act (.searcher k) m (.searcher n .playout) m (.searcher n .check)
  | playout {m k n} :
      Act (.searcher k) m (.searcher n .playout) { m with playoutCount := m.playoutCount + 1 } (.searcher n .backup)
  /-- A rejected backup stops the search. -/
  | rejected {m k n} :
      Act (.searcher k) m (.searcher n .backup)
        { m with stop := true, joined := Function.update m.joined k true } (.searcher n .done)
  | backedUp {m k n} (between : (n + 1) % 64 ≠ 0) :
      Act (.searcher k) m (.searcher n .backup) m (.searcher (n + 1) .check)
  | report {m k n} (turn : (n + 1) % 64 = 0) :
      Act (.searcher k) m (.searcher n .backup) m (.searcher (n + 1) .lookAtTree)
  | lookAtTree {m k n} (full : Bool) (limited : full = true → 0 < cfg.treeMemoryMb) :
      Act (.searcher k) m (.searcher n .lookAtTree) { m with treeFull := m.treeFull || full }
        (.searcher n (.manageTime .enter))
  | manageTime {m m' k n pc pc'} (step : ManageTime cfg fp false (.searcher k) m pc m' (some pc')) :
      Act (.searcher k) m (.searcher n (.manageTime pc)) m' (.searcher n (.manageTime pc'))
  | managed {m m' k n pc} (step : ManageTime cfg fp false (.searcher k) m pc m' none) :
      Act (.searcher k) m (.searcher n (.manageTime pc)) m' (.searcher n .check)
  | join {m} (joined : ∀ k, m.joined k = true) : Act .main m (.main .join) m (.main (.manageTime .enter))
  | manageTimeLast {m m' pc pc'} (step : ManageTime cfg fp true .main m pc m' (some pc')) :
      Act .main m (.main (.manageTime pc)) m' (.main (.manageTime pc'))
  | managedLast {m m' pc} (step : ManageTime cfg fp true .main m pc m' none) :
      Act .main m (.main (.manageTime pc)) m' (.main .managed)
  | tick {m} (ms : Nat) : Act .outside m .outside { m with elapsedMs := m.elapsedMs + ms } .outside
  | stop {m} : Act .outside m .outside { m with stop := true } .outside

end Act

/-- The search threads of one `Run`. -/
def search (κ : Type) [DecidableEq κ] {F D : Type} (cfg : SearchConfig) (fp : FloatOps F D) :
    Threads (Party κ) (Mem κ F D) (Local F D) :=
  ⟨Act cfg fp⟩

abbrev Config (κ F D : Type) := Threads.Config (Party κ) (Mem κ F D) (Local F D)

/-- `Run` has just launched the search threads; some time may have gone by. -/
structure Launched {κ F D : Type} [Fintype κ] (cfg : SearchConfig) (fp : FloatOps F D) (c : Config κ F D) : Prop where
  adaptiveStop : c.shared.adaptiveStop = false
  playoutCount : c.shared.playoutCount = 0
  lastTimeCheckMs : c.shared.lastTimeCheckMs = -1000000
  timeCheckBusy : c.shared.timeCheckBusy = false
  timeController : c.shared.timeController = .reset fp cfg.timeBudget.toTimeBudget (Fintype.card κ)
  joined : ∀ k, c.shared.joined k = false
  holder : c.shared.holder = none
  admitted : c.shared.admitted = []
  updates : c.shared.updates = []
  main : c.own .main = .main .join
  searcher : ∀ k, c.own (.searcher k) = .searcher 0 .firstCheck
  outside : c.own .outside = .outside

/-- A call holds `time_check_busy_`. -/
def ManagePc.Holds {F D : Type} : ManagePc F D → Prop
  | enter | readClock | loadLast _ | casLast _ _ | casBusy => False
  | _ => True

/-- A thread is at the controller. -/
def Local.Holds {F D : Type} : Local F D → Prop
  | main (.manageTime pc) | searcher _ (.manageTime pc) => pc.Holds
  | _ => False

/-! ## One thread at the controller -/

section Invariant

variable {κ F D : Type} {cfg : SearchConfig} {fp : FloatOps F D} {threads : Int} {force : Bool} {i j : Party κ}
  {m m' : Mem κ F D} {pc : ManagePc F D} {next : Option (ManagePc F D)} {e p : Int}

/-- The threads are told to stop if the controller says so. -/
def Settled (cfg : SearchConfig) (m : Mem κ F D) : Prop :=
  m.adaptiveStop = true ↔ cfg.timeBudget.mode = .on ∧ m.timeController.decision.shouldStop = true

/-- The last snapshot is that of `Run`, with all playouts. -/
def Final (m : Mem κ F D) : Prop :=
  ∃ (l : List (Bool × RootSearchSnapshot F)) (s : RootSearchSnapshot F),
    m.updates = l ++ [(true, s)] ∧ s.newPlayouts = m.playoutCount

/-- A time that has been read for a snapshot. -/
structure TimeRead (m : Mem κ F D) (e : Int) : Prop where
  le_now : e ≤ m.elapsedMs
  last : ∀ u ∈ m.updates, u.2.elapsedMs ≤ e

/-- A number of playouts that has been read for a snapshot. -/
structure PlayoutsRead (force : Bool) (m : Mem κ F D) (p : Int) : Prop where
  le_now : p ≤ m.playoutCount
  last : ∀ u ∈ m.updates, u.2.newPlayouts ≤ p
  final : force = true → p = m.playoutCount

/-- What holds of the memory between any two steps. -/
structure Sane (cfg : SearchConfig) (fp : FloatOps F D) (threads : Int) (m : Mem κ F D) : Prop where
  busy : m.timeCheckBusy = m.holder.isSome
  alive : ∀ k, m.holder = some (.searcher k) → m.joined k = false
  inside : m.holder ≠ some .outside
  controller : m.timeController = .run fp cfg.timeBudget.toTimeBudget threads (m.updates.map Prod.snd)
  settled : m.holder = none → Settled cfg m
  ordered : m.updates.Pairwise fun u u' => u.2.elapsedMs ≤ u'.2.elapsedMs ∧ u.2.newPlayouts ≤ u'.2.newPlayouts
  seen : ∀ u ∈ m.updates, u.2.elapsedMs ≤ m.elapsedMs ∧ u.2.newPlayouts ≤ m.playoutCount
  spaced : m.admitted.Pairwise fun e e' => e + 20 ≤ e'
  admitted_le : ∀ e ∈ m.admitted, e ≤ m.elapsedMs
  last : (∀ k, m.joined k = true) ∨ ∀ e ∈ m.admitted, (e : Int) ≤ m.lastTimeCheckMs

/-- Who calls `MaybeManageTime`. -/
def Calls (m : Mem κ F D) : Bool → Party κ → Prop
  | true, i => i = .main ∧ ∀ k, m.joined k = true
  | false, i => ∃ k, i = .searcher k ∧ m.joined k = false

/-- What a call of `MaybeManageTime` relies on; the call has returned at `none`. -/
def InCall (cfg : SearchConfig) (force : Bool) (i : Party κ) (m : Mem κ F D) : Option (ManagePc F D) → Prop
  | some .enter | some .readClock | some .casBusy => m.holder ≠ some i
  | some (.loadLast e) => m.holder ≠ some i ∧ e ≤ m.elapsedMs
  | some (.casLast e previous) =>
    m.holder ≠ some i ∧ e ≤ m.elapsedMs ∧ (force = true ∨ 20 ≤ (e : Int) - previous)
  | some .captureElapsed => m.holder = some i ∧ Settled cfg m
  | some (.capturePlayouts e) => m.holder = some i ∧ Settled cfg m ∧ TimeRead m e
  | some (.captureRoot e p) => m.holder = some i ∧ Settled cfg m ∧ TimeRead m e ∧ PlayoutsRead force m p
  | some (.readController s) =>
    m.holder = some i ∧ Settled cfg m ∧ TimeRead m s.elapsedMs ∧ PlayoutsRead force m s.newPlayouts
  | some (.writeController s t) =>
    m.holder = some i ∧ Settled cfg m ∧ TimeRead m s.elapsedMs ∧ PlayoutsRead force m s.newPlayouts ∧
      t = m.timeController
  | some (.decide shouldStop) =>
    m.holder = some i ∧ shouldStop = m.timeController.decision.shouldStop ∧
      (m.adaptiveStop = true → cfg.timeBudget.mode = .on ∧ shouldStop = true) ∧ (force = true → Final m)
  | some .release => m.holder = some i ∧ Settled cfg m ∧ (force = true → Final m)
  | none => m.holder ≠ some i ∧ (force = true → cfg.Managed → Final m)

/-- What a thread relies on. -/
def Stands (cfg : SearchConfig) (i : Party κ) (m : Mem κ F D) : Local F D → Prop
  | .main .join => i = .main ∧ m.holder ≠ some i
  | .main (.manageTime pc) => Calls m true i ∧ InCall cfg true i m (some pc)
  | .main .managed => Calls m true i ∧ InCall cfg true i m none
  | .searcher _ (.manageTime pc) => Calls m false i ∧ InCall cfg false i m (some pc)
  | .searcher _ .done => (∃ k, i = .searcher k ∧ m.joined k = true) ∧ m.holder ≠ some i
  | .searcher _ _ => Calls m false i ∧ m.holder ≠ some i
  | .outside => i = .outside ∧ m.holder ≠ some i

/-! ### A step at the controller -/

/-- A stop stays. -/
theorem shouldStop_update {t : TimeController F D} {s : RootSearchSnapshot F} (h : t.decision.shouldStop = true) :
    (t.update fp s).decision.shouldStop = true := by
  rw [TimeController.update_of_stopped fp t s h]
  exact h

theorem Sane.holder_of_free (hs : Sane cfg fp threads m) (hfree : m.timeCheckBusy = false) : m.holder = none := by
  rw [hs.busy] at hfree
  exact Option.not_isSome_iff_eq_none.mp (Bool.not_eq_true _ ▸ hfree)

/-- No one is at the controller when `Run` comes to it. -/
theorem Sane.free (hs : Sane cfg fp threads m) (hc : Calls m true i) (hout : m.holder ≠ some i) :
    m.timeCheckBusy = false := by
  obtain ⟨rfl, hall⟩ := hc
  rw [hs.busy]
  cases hholder : m.holder with
  | none => rfl
  | some j =>
    cases j with
    | main => exact absurd hholder hout
    | searcher k =>
      have := hs.alive k hholder
      rw [hall k] at this
      cases this
    | outside => exact absurd hholder hs.inside

theorem Sane.casLast {n : Nat} (hs : Sane cfg fp threads m) (hc : Calls m force i) (hnow : n ≤ m.elapsedMs)
    (hlate : force = true ∨ 20 ≤ (n : Int) - m.lastTimeCheckMs) :
    Sane cfg fp threads
      { m with
        lastTimeCheckMs := n
        admitted := if force then m.admitted else m.admitted ++ [n] } := by
  cases force with
  | true =>
    exact ⟨hs.busy, hs.alive, hs.inside, hs.controller, hs.settled, hs.ordered, hs.seen, hs.spaced, hs.admitted_le,
      Or.inl hc.2⟩
  | false =>
    obtain ⟨k, rfl, hk⟩ := hc
    have hlast : ∀ e ∈ m.admitted, (e : Int) ≤ m.lastTimeCheckMs := by
      refine hs.last.resolve_left fun hall => ?_
      rw [hall k] at hk
      cases hk
    have hlate := hlate.resolve_left Bool.false_ne_true
    have hgap : ∀ e ∈ m.admitted, e + 20 ≤ n := fun e he => by
      have := hlast e he
      omega
    refine ⟨hs.busy, hs.alive, hs.inside, hs.controller, hs.settled, hs.ordered, hs.seen, ?_, ?_, Or.inr ?_⟩
    · refine List.pairwise_append.mpr ⟨hs.spaced, List.pairwise_singleton _ _, fun e he e' he' => ?_⟩
      rw [List.mem_singleton.mp he']
      exact hgap e he
    · intro e he
      obtain he | he := List.mem_append.mp he
      · exact hs.admitted_le e he
      · rw [List.mem_singleton.mp he]
        exact hnow
    · intro e he
      obtain he | he := List.mem_append.mp he
      · exact Int.ofNat_le.mpr ((Nat.le_add_right e 20).trans (hgap e he))
      · rw [List.mem_singleton.mp he]

theorem Sane.acquire (hs : Sane cfg fp threads m) (hc : Calls m force i) :
    Sane cfg fp threads { m with timeCheckBusy := true, holder := some i } := by
  refine ⟨rfl, fun k hk => ?_, fun ho => ?_, hs.controller, fun hno => (by cases hno), hs.ordered, hs.seen, hs.spaced,
    hs.admitted_le, hs.last⟩
  · obtain rfl : i = .searcher k := Option.some.inj hk
    cases force with
    | true => cases hc.1
    | false =>
      obtain ⟨k', hk', hjoined⟩ := hc
      cases hk'
      exact hjoined
  · obtain rfl : i = .outside := Option.some.inj ho
    cases force with
    | true => cases hc.1
    | false =>
      obtain ⟨k, hk, -⟩ := hc
      cases hk

theorem Sane.writeController {s : RootSearchSnapshot F} (hs : Sane cfg fp threads m) (hheld : m.holder = some i)
    (htime : TimeRead m s.elapsedMs) (hplayouts : PlayoutsRead force m s.newPlayouts) :
    Sane cfg fp threads
      { m with
        timeController := m.timeController.update fp s
        updates := m.updates ++ [(force, s)] } := by
  refine ⟨hs.busy, hs.alive, hs.inside, ?_, fun hno => ?_, ?_, ?_, hs.spaced, hs.admitted_le, hs.last⟩
  · change m.timeController.update fp s = _
    rw [List.map_append, List.map_singleton, TimeController.run_append_singleton, hs.controller]
  · exact absurd (hheld.symm.trans hno) (by simp)
  · refine List.pairwise_append.mpr ⟨hs.ordered, List.pairwise_singleton _ _, fun u hu u' hu' => ?_⟩
    rw [List.mem_singleton.mp hu']
    exact ⟨htime.last u hu, hplayouts.last u hu⟩
  · intro u hu
    obtain hu | hu := List.mem_append.mp hu
    · exact hs.seen u hu
    · rw [List.mem_singleton.mp hu]
      exact ⟨htime.le_now, hplayouts.le_now⟩

/-- A step of a call keeps the memory sane and gives the next step what it relies on. -/
theorem InCall.step (h : InCall cfg force i m (some pc)) (hs : Sane cfg fp threads m) (hc : Calls m force i)
    (hstep : ManageTime cfg fp force i m pc m' next) : Sane cfg fp threads m' ∧ InCall cfg force i m' next := by
  cases hstep with
  | unmanaged not => exact ⟨hs, h, fun _ managed => absurd managed not⟩
  | enter => exact ⟨hs, h⟩
  | readClock => exact ⟨hs, h, le_rfl⟩
  | tooSoon _ regular =>
    refine ⟨hs, h.1, fun last => ?_⟩
    rw [regular] at last
    cases last
  | loadLast _ late => exact ⟨hs, h.1, h.2, late⟩
  | casLast same =>
    subst same
    exact ⟨hs.casLast hc h.2.1 h.2.2, h.1⟩
  | overtaken _ regular =>
    refine ⟨hs, h.1, fun last => ?_⟩
    rw [regular] at last
    cases last
  | forced => exact ⟨hs, h.1⟩
  | busy busy =>
    refine ⟨hs, h, fun last => ?_⟩
    subst last
    rw [hs.free hc h] at busy
    cases busy
  | acquire free =>
    exact ⟨hs.acquire hc, rfl, hs.settled (hs.holder_of_free free)⟩
  | captureElapsed => exact ⟨hs, h.1, h.2, le_rfl, fun u hu => (hs.seen u hu).1⟩
  | capturePlayouts =>
    exact ⟨hs, h.1, h.2.1, h.2.2, le_rfl, fun u hu => (hs.seen u hu).2, fun _ => rfl⟩
  | captureRoot elapsed playouts =>
    subst elapsed playouts
    exact ⟨hs, h⟩
  | readController => exact ⟨hs, h.1, h.2.1, h.2.2.1, h.2.2.2, rfl⟩
  | writeController =>
    obtain ⟨hheld, hsettled, htime, hplayouts, rfl⟩ := h
    refine ⟨hs.writeController hheld htime hplayouts, hheld, rfl, fun hstop => ?_, fun last => ?_⟩
    · obtain ⟨hon, hshould⟩ := hsettled.mp hstop
      exact ⟨hon, shouldStop_update hshould⟩
    · subst last
      exact ⟨_, _, rfl, hplayouts.final rfl⟩
  | decide =>
    obtain ⟨hheld, rfl, hstop, hfinal⟩ := h
    refine ⟨⟨hs.busy, hs.alive, hs.inside, hs.controller, fun hno => ?_, hs.ordered, hs.seen, hs.spaced,
      hs.admitted_le, hs.last⟩, hheld, ?_, hfinal⟩
    · exact absurd (hheld.symm.trans hno) (by simp)
    · rw [Settled, Bool.or_eq_true, Bool.and_eq_true, decide_eq_true_eq]
      exact or_iff_right_of_imp hstop
  | release =>
    obtain ⟨hheld, hsettled, hfinal⟩ := h
    refine ⟨⟨rfl, fun k hk => (by cases hk), fun ho => (by cases ho), hs.controller, fun _ => hsettled, hs.ordered,
      hs.seen, hs.spaced, hs.admitted_le, hs.last⟩, fun hno => (by cases hno), fun last _ => hfinal last⟩

/-! ### The other threads -/

/-- What a step of thread `i` may change for the others. -/
structure Frame (i : Party κ) (m m' : Mem κ F D) : Prop where
  elapsed : m.elapsedMs ≤ m'.elapsedMs
  playouts : m.playoutCount ≤ m'.playoutCount
  joined : ∀ k, i ≠ .searcher k → m'.joined k = m.joined k
  holder : ∀ j, j ≠ i → (m'.holder = some j ↔ m.holder = some j)
  held : m.holder ≠ some i →
    m'.timeController = m.timeController ∧ m'.updates = m.updates ∧ m'.adaptiveStop = m.adaptiveStop

theorem Settled.of_held (h : Settled cfg m) (hcontroller : m'.timeController = m.timeController)
    (hstop : m'.adaptiveStop = m.adaptiveStop) : Settled cfg m' := by
  rw [Settled, hcontroller, hstop]
  exact h

theorem TimeRead.of_held (h : TimeRead m e) (hupdates : m'.updates = m.updates) (hle : m.elapsedMs ≤ m'.elapsedMs) :
    TimeRead m' e := by
  refine ⟨h.le_now.trans (Int.ofNat_le.mpr hle), ?_⟩
  rw [hupdates]
  exact h.last

theorem PlayoutsRead.of_held (h : PlayoutsRead force m p) (hupdates : m'.updates = m.updates)
    (hle : m.playoutCount ≤ m'.playoutCount) (hsame : force = true → m'.playoutCount = m.playoutCount) :
    PlayoutsRead force m' p := by
  refine ⟨h.le_now.trans (Int.ofNat_le.mpr hle), ?_, fun last => ?_⟩
  · rw [hupdates]
    exact h.last
  · rw [hsame last]
    exact h.final last

theorem Final.of_held (h : Final m) (hupdates : m'.updates = m.updates) (hsame : m'.playoutCount = m.playoutCount) :
    Final m' := by
  rw [Final, hupdates, hsame]
  exact h

/-- A step of another thread takes nothing from a call. -/
theorem InCall.other (h : InCall cfg force j m next) (hf : Frame i m m') (hne : j ≠ i)
    (hlast : force = true → m'.playoutCount = m.playoutCount ∧ m.holder ≠ some i) : InCall cfg force j m' next := by
  have hin : ∀ {P : Prop}, m.holder = some j →
      (m'.holder = some j → m'.timeController = m.timeController → m'.updates = m.updates →
        m'.adaptiveStop = m.adaptiveStop → P) → P := by
    intro P hj hp
    obtain ⟨h1, h2, h3⟩ := hf.held fun hi => hne (Option.some.inj (hj.symm.trans hi))
    exact hp ((hf.holder j hne).mpr hj) h1 h2 h3
  have hout : m.holder ≠ some j → m'.holder ≠ some j := mt (hf.holder j hne).mp
  have hfinal : force = true → Final m → Final m' := fun last hm =>
    hm.of_held (hf.held (hlast last).2).2.1 (hlast last).1
  have hsame : force = true → m'.playoutCount = m.playoutCount := fun last => (hlast last).1
  match next with
  | some .enter | some .readClock | some .casBusy => exact hout h
  | some (.loadLast _) => exact ⟨hout h.1, h.2.trans hf.elapsed⟩
  | some (.casLast _ _) => exact ⟨hout h.1, h.2.1.trans hf.elapsed, h.2.2⟩
  | some .captureElapsed => exact hin h.1 fun hj hc _ hs => ⟨hj, h.2.of_held hc hs⟩
  | some (.capturePlayouts _) =>
    exact hin h.1 fun hj hc hu hs => ⟨hj, h.2.1.of_held hc hs, h.2.2.of_held hu hf.elapsed⟩
  | some (.captureRoot _ _) | some (.readController _) =>
    exact hin h.1 fun hj hc hu hs =>
      ⟨hj, h.2.1.of_held hc hs, h.2.2.1.of_held hu hf.elapsed, h.2.2.2.of_held hu hf.playouts hsame⟩
  | some (.writeController _ _) =>
    exact hin h.1 fun hj hc hu hs =>
      ⟨hj, h.2.1.of_held hc hs, h.2.2.1.of_held hu hf.elapsed, h.2.2.2.1.of_held hu hf.playouts hsame,
        h.2.2.2.2.trans hc.symm⟩
  | some (.decide _) =>
    refine hin h.1 fun hj hc _ hs => ⟨hj, ?_, ?_, fun last => hfinal last (h.2.2.2 last)⟩
    · rw [hc]
      exact h.2.1
    · rw [hs]
      exact h.2.2.1
  | some .release => exact hin h.1 fun hj hc _ hs => ⟨hj, h.2.1.of_held hc hs, fun last => hfinal last (h.2.2 last)⟩
  | none => exact ⟨hout h.1, fun last managed => hfinal last (h.2 last managed)⟩

theorem Calls.other (h : Calls m force j) (hf : Frame i m m') (hne : j ≠ i)
    (hjoined : ∀ k, m.joined k = true → m'.joined k = true) : Calls m' force j := by
  cases force with
  | true => exact ⟨h.1, fun k => hjoined k (h.2 k)⟩
  | false =>
    obtain ⟨k, rfl, hk⟩ := h
    exact ⟨k, rfl, (hf.joined k hne.symm).trans hk⟩

/-- What the others see of a step of a call. -/
theorem frame_of_manageTime (h : InCall cfg force i m (some pc)) (hs : Sane cfg fp threads m)
    (hstep : ManageTime cfg fp force i m pc m' next) : Frame i m m' ∧ m'.joined = m.joined := by
  have hsame : Frame i m m := ⟨le_rfl, le_rfl, fun _ _ => rfl, fun _ _ => Iff.rfl, fun _ => ⟨rfl, rfl, rfl⟩⟩
  cases hstep with
  | casLast => exact ⟨{ hsame with }, rfl⟩
  | acquire free =>
    refine ⟨{ hsame with holder := fun j hj => ?_ }, rfl⟩
    rw [hs.holder_of_free free]
    exact iff_of_false (fun hi => hj (Option.some.inj hi).symm) (by simp)
  | writeController => exact ⟨{ hsame with held := fun hno => absurd h.1 hno }, rfl⟩
  | decide => exact ⟨{ hsame with held := fun hno => absurd h.1 hno }, rfl⟩
  | release =>
    refine ⟨{ hsame with holder := fun j hj => ?_, held := fun hno => absurd h.1 hno }, rfl⟩
    rw [h.1]
    exact iff_of_false (by simp) fun hi => hj (Option.some.inj hi).symm
  | _ => exact ⟨hsame, rfl⟩

/-- What a step of a call does. -/
theorem InCall.act (h : InCall cfg force i m (some pc)) (hs : Sane cfg fp threads m) (hc : Calls m force i)
    (hstep : ManageTime cfg fp force i m pc m' next) : Sane cfg fp threads m' ∧ InCall cfg force i m' next ∧
      Frame i m m' ∧ (∀ k, m.joined k = true → m'.joined k = true) ∧ Calls m' force i := by
  obtain ⟨hs', hin⟩ := h.step hs hc hstep
  obtain ⟨hf, hjoined⟩ := frame_of_manageTime h hs hstep
  refine ⟨hs', hin, hf, fun k => (congrFun hjoined k).trans, ?_⟩
  cases force with
  | true => exact ⟨hc.1, fun k => (congrFun hjoined k).trans (hc.2 k)⟩
  | false =>
    obtain ⟨k, hk, hruns⟩ := hc
    exact ⟨k, hk, (congrFun hjoined k).trans hruns⟩

/-- A step away from the controller. -/
structure Plain (i : Party κ) (m m' : Mem κ F D) : Prop where
  busy : m'.timeCheckBusy = m.timeCheckBusy
  holder : m'.holder = m.holder
  controller : m'.timeController = m.timeController
  adaptiveStop : m'.adaptiveStop = m.adaptiveStop
  updates : m'.updates = m.updates
  admitted : m'.admitted = m.admitted
  last : m'.lastTimeCheckMs = m.lastTimeCheckMs
  elapsed : m.elapsedMs ≤ m'.elapsedMs
  playouts : m.playoutCount ≤ m'.playoutCount
  joined : ∀ k, i ≠ .searcher k → m'.joined k = m.joined k
  joins : ∀ k, m.joined k = true → m'.joined k = true

theorem Plain.frame (h : Plain i m m') : Frame i m m' :=
  ⟨h.elapsed, h.playouts, h.joined, fun j _ => by rw [h.holder],
    fun _ => ⟨h.controller, h.updates, h.adaptiveStop⟩⟩

theorem Plain.sane (h : Plain i m m') (hs : Sane cfg fp threads m) (hout : m.holder ≠ some i) :
    Sane cfg fp threads m' := by
  refine ⟨?_, fun k hk => ?_, ?_, ?_, fun hno => ?_, ?_, fun u hu => ?_, ?_, fun e he => ?_, ?_⟩
  · rw [h.busy, h.holder]
    exact hs.busy
  · rw [h.holder] at hk
    rw [h.joined k fun hi => hout (hi ▸ hk)]
    exact hs.alive k hk
  · rw [h.holder]
    exact hs.inside
  · rw [h.controller, h.updates]
    exact hs.controller
  · rw [h.holder] at hno
    exact (hs.settled hno).of_held h.controller h.adaptiveStop
  · rw [h.updates]
    exact hs.ordered
  · rw [h.updates] at hu
    obtain ⟨htime, hplayouts⟩ := hs.seen u hu
    exact ⟨htime.trans (Int.ofNat_le.mpr h.elapsed), hplayouts.trans (Int.ofNat_le.mpr h.playouts)⟩
  · rw [h.admitted]
    exact hs.spaced
  · rw [h.admitted] at he
    exact (hs.admitted_le e he).trans h.elapsed
  · rw [h.admitted, h.last]
    exact hs.last.imp_left fun hall k => h.joins k (hall k)

/-- Who is at the controller. -/
theorem Stands.holds_iff {t : Local F D} (h : Stands cfg i m t) : t.Holds ↔ m.holder = some i := by
  have hcall : ∀ {force pc}, InCall cfg force i m (some pc) → (pc.Holds ↔ m.holder = some i) := by
    intro force pc h
    match pc with
    | .enter | .readClock | .casBusy => exact iff_of_false id h
    | .loadLast _ | .casLast _ _ => exact iff_of_false id h.1
    | .captureElapsed | .capturePlayouts _ | .captureRoot _ _ | .readController _ | .writeController _ _ | .decide _
    | .release => exact iff_of_true trivial h.1
  match t with
  | .main .join => exact iff_of_false id h.2
  | .main (.manageTime _) | .searcher _ (.manageTime _) => exact hcall h.2
  | .main .managed => exact iff_of_false id h.2.1
  | .searcher _ .done => exact iff_of_false id h.2
  | .searcher _ .firstCheck | .searcher _ .check | .searcher _ .playout | .searcher _ .backup
  | .searcher _ .lookAtTree => exact iff_of_false id h.2
  | .outside => exact iff_of_false id h.2

/-- The threads are told to stop only where the controller says so. -/
theorem Stands.stop {t : Local F D} (h : Stands cfg i m t) (hholds : t.Holds) (hstop : m.adaptiveStop = true) :
    cfg.timeBudget.mode = .on ∧ m.timeController.decision.shouldStop = true := by
  have hcall : ∀ {force pc}, pc.Holds → InCall cfg force i m (some pc) →
      cfg.timeBudget.mode = .on ∧ m.timeController.decision.shouldStop = true := by
    intro force pc hpc h
    match pc with
    | .captureElapsed => exact h.2.mp hstop
    | .capturePlayouts _ | .captureRoot _ _ | .readController _ | .writeController _ _ | .release =>
      exact h.2.1.mp hstop
    | .decide _ =>
      obtain ⟨-, hshould, himp, -⟩ := h
      rw [← hshould]
      exact himp hstop
  match t with
  | .main (.manageTime _) | .searcher _ (.manageTime _) => exact hcall hholds h.2

variable [DecidableEq κ]

/-- The steps other than those of a call are plain; only a search thread that runs counts playouts. -/
theorem plain_of_act {t t' : Local F D} (h : Act cfg fp i m t m' t')
    (hno : ∀ pc, t ≠ .main (.manageTime pc) ∧ ∀ n, t ≠ .searcher n (.manageTime pc)) : Plain i m m' := by
  have hsame : ∀ {c : Mem κ F D}, Plain i c c := fun {c} =>
    ⟨rfl, rfl, rfl, rfl, rfl, rfl, rfl, le_rfl, le_rfl, fun _ _ => rfl, fun _ => id⟩
  have hjoin : ∀ k b, i = .searcher k → Plain i m { m with stop := b, joined := Function.update m.joined k true } := by
    rintro k b rfl
    refine ⟨rfl, rfl, rfl, rfl, rfl, rfl, rfl, le_rfl, le_rfl, fun k' hk => ?_, fun k' hk => ?_⟩
    · exact Function.update_of_ne (fun he => hk (congrArg Party.searcher he.symm)) _ _
    · by_cases he : k' = k
      · rw [he]
        exact Function.update_self ..
      · exact (Function.update_of_ne he _ _).trans hk
  cases h with
  | firstInactive | inactive => exact hjoin _ m.stop rfl
  | rejected => exact hjoin _ true rfl
  | playout => exact { hsame (c := m) with playouts := Nat.le_succ _ }
  | tick => exact { hsame (c := m) with elapsed := Nat.le_add_right _ _ }
  | lookAtTree | stop => exact { hsame (c := m) with }
  | manageTime => exact absurd rfl ((hno _).2 _)
  | managed => exact absurd rfl ((hno _).2 _)
  | manageTimeLast => exact absurd rfl (hno _).1
  | managedLast => exact absurd rfl (hno _).1
  | _ => exact hsame

/-- What one step does: it keeps the memory sane and what its thread relies on, and changes little for the others. -/
theorem Stands.step {t t' : Local F D} (h : Stands cfg i m t) (hs : Sane cfg fp threads m)
    (hact : Act cfg fp i m t m' t') : Sane cfg fp threads m' ∧ Stands cfg i m' t' ∧ Frame i m m' ∧
      (∀ k, m.joined k = true → m'.joined k = true) ∧
      ((∀ k, m.joined k = true) → i ≠ .main → m'.playoutCount = m.playoutCount ∧ m.holder ≠ some i) := by
  have hplain : m.holder ≠ some i → (∀ pc, t ≠ .main (.manageTime pc) ∧ ∀ n, t ≠ .searcher n (.manageTime pc)) →
      ((∀ k, m.joined k = true) → i ≠ .main → m'.playoutCount = m.playoutCount ∧ m.holder ≠ some i) →
      Stands cfg i m' t' → Sane cfg fp threads m' ∧ Stands cfg i m' t' ∧ Frame i m m' ∧
        (∀ k, m.joined k = true → m'.joined k = true) ∧
        ((∀ k, m.joined k = true) → i ≠ .main → m'.playoutCount = m.playoutCount ∧ m.holder ≠ some i) :=
    fun hout hno hquiet hstands =>
      have hp := plain_of_act hact hno
      ⟨hp.sane hs hout, hstands, hp.frame, hp.joins, hquiet⟩
  -- a search thread that runs has not been joined
  have hruns : ∀ {P : Prop}, Calls m false i → (∀ k, m.joined k = true) → P := by
    rintro P ⟨k, -, hk⟩ hall
    rw [hall k] at hk
    cases hk
  cases hact with
  | firstActive | active | discarded | backedUp | report =>
    exact hplain h.2 (by simp) (fun hall _ => hruns h.1 hall) h
  | playout => exact hplain h.2 (by simp) (fun hall _ => hruns h.1 hall) ⟨h.1, h.2⟩
  | lookAtTree => exact hplain h.2 (by simp) (fun hall _ => hruns h.1 hall) ⟨h.1, h.2⟩
  | firstInactive | inactive | rejected =>
    exact hplain h.2 (by simp) (fun hall _ => hruns h.1 hall) ⟨⟨_, rfl, Function.update_self ..⟩, h.2⟩
  | manageTime step =>
    obtain ⟨hs', hin, hf, hjoins, hc⟩ := h.2.act hs h.1 step
    exact ⟨hs', ⟨hc, hin⟩, hf, hjoins, fun hall _ => hruns h.1 hall⟩
  | managed step =>
    obtain ⟨hs', hin, hf, hjoins, hc⟩ := h.2.act hs h.1 step
    exact ⟨hs', ⟨hc, hin.1⟩, hf, hjoins, fun hall _ => hruns h.1 hall⟩
  | join joined => exact hplain h.2 (by simp) (fun _ hno => absurd rfl hno) ⟨⟨rfl, joined⟩, h.2⟩
  | manageTimeLast step | managedLast step =>
    obtain ⟨hs', hin, hf, hjoins, hc⟩ := h.2.act hs h.1 step
    exact ⟨hs', ⟨hc, hin⟩, hf, hjoins, fun _ hno => absurd rfl hno⟩
  | tick | stop => exact hplain h.2 (by simp) (fun _ _ => ⟨rfl, h.2⟩) h

theorem Stands.other {t t' x : Local F D} (hj : Stands cfg j m x) (h : Stands cfg i m t) (hne : j ≠ i)
    (hs : Sane cfg fp threads m) (hact : Act cfg fp i m t m' t') : Stands cfg j m' x := by
  obtain ⟨-, -, hf, hjoins, hquiet⟩ := h.step hs hact
  have hout : m.holder ≠ some j → m'.holder ≠ some j := mt (hf.holder j hne).mp
  have hcalls : ∀ force, Calls m force j → Calls m' force j := fun force hc => hc.other hf hne hjoins
  have hlast : Calls m true j → true = true → m'.playoutCount = m.playoutCount ∧ m.holder ≠ some i := by
    rintro ⟨rfl, hall⟩ -
    exact hquiet hall hne.symm
  match x with
  | .main .join => exact ⟨hj.1, hout hj.2⟩
  | .main (.manageTime _) | .main .managed => exact ⟨hcalls true hj.1, hj.2.other hf hne (hlast hj.1)⟩
  | .searcher _ (.manageTime _) => exact ⟨hcalls false hj.1, hj.2.other hf hne fun no => by cases no⟩
  | .searcher _ .done =>
    obtain ⟨⟨k, hk, hjoined⟩, hholder⟩ := hj
    exact ⟨⟨k, hk, hjoins k hjoined⟩, hout hholder⟩
  | .searcher _ .firstCheck | .searcher _ .check | .searcher _ .playout | .searcher _ .backup
  | .searcher _ .lookAtTree => exact ⟨hcalls false hj.1, hout hj.2⟩
  | .outside => exact ⟨hj.1, hout hj.2⟩

end Invariant

/-! ## Runs -/

section Runs

variable {κ F D : Type} [Fintype κ] {cfg : SearchConfig} {fp : FloatOps F D} {c₀ c : Config κ F D}

theorem Launched.sane (h : Launched cfg fp c₀) : Sane cfg fp (Fintype.card κ) c₀.shared := by
  refine ⟨?_, ?_, ?_, ?_, fun _ => ?_, ?_, ?_, ?_, ?_, Or.inr ?_⟩
  · rw [h.timeCheckBusy, h.holder]
    rfl
  · intro k hk
    exact h.joined k
  · rw [h.holder]
    simp
  · rw [h.timeController, h.updates]
    rfl
  · rw [Settled, h.adaptiveStop, h.timeController]
    exact iff_of_false Bool.false_ne_true fun hstop => Bool.false_ne_true hstop.2
  · rw [h.updates]
    exact .nil
  · rw [h.updates]
    exact fun u hu => absurd hu List.not_mem_nil
  · rw [h.admitted]
    exact .nil
  · rw [h.admitted]
    exact fun e he => absurd he List.not_mem_nil
  · rw [h.admitted]
    exact fun e he => absurd he List.not_mem_nil

theorem Launched.stands (h : Launched cfg fp c₀) (i : Party κ) : Stands cfg i c₀.shared (c₀.own i) := by
  have hout : c₀.shared.holder ≠ some i := by
    rw [h.holder]
    simp
  cases i with
  | main =>
    rw [h.main]
    exact ⟨rfl, hout⟩
  | searcher k =>
    rw [h.searcher]
    exact ⟨⟨k, rfl, h.joined k⟩, hout⟩
  | outside =>
    rw [h.outside]
    exact ⟨rfl, hout⟩

variable [DecidableEq κ]

theorem stands_of_reach (hstart : Launched cfg fp c₀) (h : (search κ cfg fp).Reach c₀ c) :
    Sane cfg fp (Fintype.card κ) c.shared ∧ ∀ i, Stands cfg i c.shared (c.own i) :=
  h.thread_invariant ⟨hstart.sane, hstart.stands⟩
    (fun _ _ _ _ _ hs hi hact => ⟨(hi.step hs hact).1, (hi.step hs hact).2.1⟩)
    (fun _ _ _ _ _ _ _ hs hi hj hne hact => hj.other hi hne hs hact)

/-! ### The controller -/

/-- What is seen of the time controller: one thread at a time is at it, it is as if it had been shown the snapshots one
after the other, and they are in the order of their times and playouts. When no thread is at it, the threads are told
to stop if and only if it says so and is on. -/
structure Serialized (cfg : SearchConfig) (fp : FloatOps F D) (c : Config κ F D) : Prop where
  alone : ∀ i j, (c.own i).Holds → (c.own j).Holds → i = j
  controller : c.shared.timeController =
    .run fp cfg.timeBudget.toTimeBudget (Fintype.card κ) (c.shared.updates.map Prod.snd)
  ordered : c.shared.updates.Pairwise fun u u' =>
    u.2.elapsedMs ≤ u'.2.elapsedMs ∧ u.2.newPlayouts ≤ u'.2.newPlayouts
  settled : (∀ i, ¬(c.own i).Holds) → Settled cfg c.shared

/-- In every interleaving the calls of `Update` are serialized and none is lost. -/
theorem serialized_of_reach (hstart : Launched cfg fp c₀) (h : (search κ cfg fp).Reach c₀ c) :
    Serialized cfg fp c := by
  obtain ⟨hs, hstands⟩ := stands_of_reach hstart h
  refine ⟨fun i j hi hj => ?_, hs.controller, hs.ordered, fun hno => hs.settled ?_⟩
  · have hi := (hstands i).holds_iff.mp hi
    have hj := (hstands j).holds_iff.mp hj
    exact Option.some.inj (hi.symm.trans hj)
  · cases hholder : c.shared.holder with
    | none => rfl
    | some i => exact absurd ((hstands i).holds_iff.mpr hholder) (hno i)

/-- Once `Run` has shown the controller its snapshot, which no other thread keeps it from, that is the last one, with
all the playouts of the search. -/
theorem final_update_of_reach (hstart : Launched cfg fp c₀) (h : (search κ cfg fp).Reach c₀ c)
    (hmanaged : cfg.Managed) (hmain : c.own .main = .main .managed) :
    ∃ l s, c.shared.updates = l ++ [(true, s)] ∧ s.newPlayouts = (c.shared.playoutCount : Int) ∧
      c.shared.timeController =
        (TimeController.run fp cfg.timeBudget.toTimeBudget (Fintype.card κ) (l.map Prod.snd)).update fp s ∧
      Settled cfg c.shared := by
  obtain ⟨hs, hstands⟩ := stands_of_reach hstart h
  have hlast := hstands .main
  rw [hmain] at hlast
  obtain ⟨⟨-, hjoined⟩, hout, hfinal⟩ := hlast
  obtain ⟨l, s, hupdates, hplayouts⟩ := hfinal rfl hmanaged
  refine ⟨l, s, hupdates, hplayouts, ?_, hs.settled (hs.holder_of_free (hs.free ⟨rfl, hjoined⟩ hout))⟩
  rw [hs.controller, hupdates, List.map_append, List.map_singleton, TimeController.run_append_singleton]

/-! ### The stop -/

section Stop

variable {budget : TimeBudget} {threads : Int} {l : List (RootSearchSnapshot F)} {s : RootSearchSnapshot F}

/-- Why a snapshot may stop the search. -/
def Justifies (budget : TimeBudget) (s : RootSearchSnapshot F) : Prop :=
  s.bestProven = true ∨ budget.targetStopMs ≤ s.elapsedMs ∨
    budget.allowEarlyStop = true ∧ budget.earliestStopMs ≤ s.elapsedMs

omit [Fintype κ] [DecidableEq κ] in
theorem run_without_deadline (hnone : budget.hasAdaptiveDeadline = false) :
    (TimeController.run fp budget threads l).budget = budget ∧
      (TimeController.run fp budget threads l).decision.shouldStop = false := by
  induction l using List.reverseRecOn with
  | nil => exact ⟨rfl, rfl⟩
  | append_singleton l s ih =>
    obtain ⟨hbudget, hstop⟩ := ih
    have hsame : ((TimeController.run fp budget threads l).update fp s).budget = budget ∧
        ((TimeController.run fp budget threads l).update fp s).decision.shouldStop =
          (TimeController.run fp budget threads l).decision.shouldStop := by
      rw [TimeController.update, if_pos (by simp only [hbudget, hnone, Bool.not_false, Bool.true_or])]
      exact ⟨hbudget, rfl⟩
    rw [TimeController.run_append_singleton]
    exact ⟨hsame.1, hsame.2.trans hstop⟩

/-- The snapshot that stops the search justifies it. -/
theorem exists_justifies_of_stop (ho : budget.Ordered)
    (hstop : (TimeController.run fp budget threads l).decision.shouldStop = true) :
    ∃ l₁ s l₂, l = l₁ ++ s :: l₂ ∧ (TimeController.run fp budget threads l₁).decision.shouldStop = false ∧
      (TimeController.run fp budget threads (l₁ ++ [s])).decision.shouldStop = true ∧ Justifies budget s := by
  have hdeadline : budget.hasAdaptiveDeadline = true := by
    by_contra hno
    rw [(run_without_deadline (Bool.not_eq_true _ ▸ hno)).2] at hstop
    cases hstop
  induction l using List.reverseRecOn with
  | nil => cases hstop
  | append_singleton l s ih =>
    cases hbefore : (TimeController.run fp budget threads l).decision.shouldStop with
    | true =>
      obtain ⟨l₁, s', l₂, rfl, h⟩ := ih hbefore
      exact ⟨l₁, s', l₂ ++ [s], by simp, h⟩
    | false =>
      refine ⟨l, s, [], rfl, hbefore, hstop, ?_⟩
      obtain ⟨hbudget, hwithin⟩ := TimeController.run_invariant fp (n := threads) ho hdeadline l
      rw [TimeController.run_append_singleton] at hstop
      obtain ⟨u, hu, hupdate⟩ :=
        TimeController.update_of_running fp _ s (by rw [hbudget]; exact hdeadline) hbefore
      have hub : u.budget = budget := hu.budget.trans hbudget
      rw [hupdate] at hstop
      split at hstop
      · rename_i hproven
        exact Or.inl hproven
      · have hext : u.ExtensionWithin := by
          rw [TimeController.ExtensionWithin, hu.budget, hu.extension]
          exact hwithin
        obtain ⟨-, -, -, -, -, hcause⟩ := TimeController.unproven_spec fp u s (by rw [hub]; exact ho.target_le) hext
          (hu.shouldStop.trans hbefore)
        rw [hub] at hcause
        exact Or.inr (hcause hstop)

/-- A snapshot that comes too late, or with a proven best move, stops the search. -/
theorem stop_of_mem (ho : budget.Ordered) (hdeadline : budget.hasAdaptiveDeadline = true) (hs : s ∈ l)
    (hlate : s.bestProven = true ∨ budget.latestSearchMs ≤ s.elapsedMs) :
    (TimeController.run fp budget threads l).decision.shouldStop = true := by
  induction l using List.reverseRecOn with
  | nil => cases hs
  | append_singleton l s' ih =>
    obtain ⟨hbudget, hwithin⟩ := TimeController.run_invariant fp (n := threads) ho hdeadline l
    rw [TimeController.run_append_singleton]
    cases hbefore : (TimeController.run fp budget threads l).decision.shouldStop with
    | true => exact shouldStop_update hbefore
    | false =>
      obtain hmem | hmem := List.mem_append.mp hs
      · rw [ih hmem] at hbefore
        cases hbefore
      · obtain rfl := List.mem_singleton.mp hmem
        obtain hproven | hlate := hlate
        · obtain ⟨u, -, hupdate⟩ :=
            TimeController.update_of_running fp _ s (by rw [hbudget]; exact hdeadline) hbefore
          rw [hupdate, if_pos hproven]
          rfl
        · exact (TimeController.update_spec fp _ s hbudget ho hdeadline hwithin).2.2.latest hlate

end Stop

/-- In every interleaving under a budget of the time manager: if the threads are told to stop, then for a snapshot with
a proven best move, or one from the target on, or, where an early stop is allowed, one after the earliest stop; and a
snapshot with a proven best move, or one from the latest time on, stops them. -/
theorem stopped_of_reach {control : Control} {options : TimeOptions}
    (hbudget : compute control options = some cfg.timeBudget) (hmanaged : cfg.Managed) (hstart : Launched cfg fp c₀) (h : (search κ cfg fp).Reach c₀ c) :
    (c.shared.adaptiveStop = true → cfg.timeBudget.mode = .on ∧
      ∃ l₁ u l₂, c.shared.updates = l₁ ++ u :: l₂ ∧ u.2.elapsedMs ≤ (c.shared.elapsedMs : Int) ∧
        (TimeController.run fp cfg.timeBudget.toTimeBudget (Fintype.card κ)
          (l₁.map Prod.snd)).decision.shouldStop = false ∧
        (TimeController.run fp cfg.timeBudget.toTimeBudget (Fintype.card κ)
          (l₁.map Prod.snd ++ [u.2])).decision.shouldStop = true ∧
        Justifies cfg.timeBudget.toTimeBudget u.2) ∧
    (cfg.timeBudget.mode = .on → (∀ i, ¬(c.own i).Holds) → ∀ u ∈ c.shared.updates,
      u.2.bestProven = true ∨ cfg.timeBudget.latestSearchMs ≤ u.2.elapsedMs → c.shared.adaptiveStop = true) := by
  obtain ⟨hs, hstands⟩ := stands_of_reach hstart h
  have horder := inOrder_of_compute hbudget hmanaged.2
  have ho : cfg.timeBudget.toTimeBudget.Ordered := ⟨horder.earliest_le, horder.target_le⟩
  constructor
  · intro hstop
    have hcause : cfg.timeBudget.mode = .on ∧ c.shared.timeController.decision.shouldStop = true := by
      cases hholder : c.shared.holder with
      | none => exact (hs.settled hholder).mp hstop
      | some i => exact (hstands i).stop ((hstands i).holds_iff.mpr hholder) hstop
    refine ⟨hcause.1, ?_⟩
    have hshould := hcause.2
    rw [hs.controller] at hshould
    obtain ⟨l₁, s, l₂, hl, hbefore, hafter, hjustifies⟩ := exists_justifies_of_stop ho hshould
    obtain ⟨k₁, k₂, hk, rfl, hk₂⟩ := List.map_eq_append_iff.mp hl
    obtain ⟨u, k₃, rfl, rfl, rfl⟩ := List.map_eq_cons_iff.mp hk₂
    have hu : u ∈ c.shared.updates := by
      rw [hk]
      exact List.mem_append_right _ List.mem_cons_self
    exact ⟨k₁, u, k₃, hk, (hs.seen u hu).1, hbefore, hafter, hjustifies⟩
  · intro hon hno u hu hlate
    have hsettled := (serialized_of_reach hstart h).settled hno
    refine hsettled.mpr ⟨hon, ?_⟩
    rw [hs.controller]
    exact stop_of_mem ho hmanaged.2 (List.mem_map_of_mem hu) hlate

end Runs

/-! ## Counting -/

/-- The snapshots that the search threads have shown the controller. -/
def Mem.regular {κ F D : Type} (m : Mem κ F D) : Nat := m.updates.countP fun u => !u.1

section Counting

variable {κ F D : Type} {cfg : SearchConfig} {fp : FloatOps F D} {i : Party κ} {m m' : Mem κ F D} {pc : ManagePc F D}
  {next : Option (ManagePc F D)}

/-- A call that has passed the interval and has shown no snapshot yet. -/
def ManagePc.admitted : ManagePc F D → ℤ
  | casBusy | captureElapsed | capturePlayouts _ | captureRoot _ _ | readController _ | writeController _ _ => 1
  | _ => 0

/-- A call that has not passed the interval yet. -/
def ManagePc.waiting : ManagePc F D → ℤ
  | enter | readClock | loadLast _ | casLast _ _ => 1
  | _ => 0

/-- Calls that have passed the interval and have shown no snapshot yet. -/
def Local.admitted : Local F D → ℤ
  | searcher _ (.manageTime pc) => pc.admitted
  | _ => 0

/-- Calls that the iterations of a search thread have allowed, without the one that has not passed the interval yet. -/
def Local.allowed : Local F D → ℤ
  | searcher n .lookAtTree => (n / 64 : Nat) - 1
  | searcher n (.manageTime pc) => (n / 64 : Nat) - pc.waiting
  | searcher n _ => (n / 64 : Nat)
  | _ => 0

/-- Playouts of a search thread that have not been rejected. -/
def Local.playouts : Local F D → ℤ
  | searcher n .backup => n + 1
  | searcher n _ => n
  | _ => 0

/-- A thread that is in no playout. -/
def Local.idle : Local F D → ℤ
  | searcher _ .playout => 0
  | _ => 1

theorem allowed_le (t : Local F D) : 64 * t.allowed ≤ t.playouts := by
  have hdiv : ∀ n : Nat, 64 * ((n / 64 : Nat) : ℤ) ≤ n := fun n => by omega
  have hwaiting : ∀ pc : ManagePc F D, 0 ≤ pc.waiting := by
    intro pc
    match pc with
    | .enter | .readClock | .loadLast _ | .casLast _ _ => exact zero_le_one
    | .casBusy | .captureElapsed | .capturePlayouts _ | .captureRoot _ _ | .readController _ | .writeController _ _
    | .decide _ | .release => exact le_rfl
  match t with
  | .main _ | .outside => exact le_rfl
  | .searcher n (.manageTime pc) =>
    have hn := hdiv n
    have hpc := hwaiting pc
    change 64 * (((n / 64 : Nat) : ℤ) - pc.waiting) ≤ n
    omega
  | .searcher n .lookAtTree =>
    have hn := hdiv n
    change 64 * (((n / 64 : Nat) : ℤ) - 1) ≤ n
    omega
  | .searcher n .backup =>
    have hn := hdiv n
    change 64 * ((n / 64 : Nat) : ℤ) ≤ n + 1
    omega
  | .searcher n .firstCheck | .searcher n .check | .searcher n .playout | .searcher n .done => exact hdiv n

/-- What a call of a search thread counts. -/
theorem counts_of_manageTime (h : ManageTime cfg fp false i m pc m' next) : m'.playoutCount = m.playoutCount ∧
    (m'.regular : ℤ) - m'.admitted.length + next.elim 0 ManagePc.admitted ≤
      m.regular - m.admitted.length + pc.admitted ∧
    m'.admitted.length + next.elim 0 ManagePc.waiting ≤ m.admitted.length + pc.waiting := by
  cases h with
  | casLast =>
    refine ⟨rfl, ?_, ?_⟩
    · change (m.regular : ℤ) - (m.admitted ++ [_]).length + 1 ≤ m.regular - m.admitted.length + 0
      rw [List.length_append, List.length_singleton]
      omega
    · change ((m.admitted ++ [_]).length : ℤ) + 0 ≤ m.admitted.length + 1
      rw [List.length_append, List.length_singleton]
      omega
  | writeController =>
    refine ⟨rfl, ?_, le_rfl⟩
    change ((List.countP _ (m.updates ++ [_]) : Nat) : ℤ) - m.admitted.length + 0 ≤
      (List.countP _ m.updates : Nat) - m.admitted.length + 1
    rw [List.countP_append, List.countP_singleton]
    simp only [Bool.not_false, if_true]
    omega
  | forced _ last => cases last
  | _ => exact ⟨rfl, by simp [ManagePc.admitted, Mem.regular], by simp [ManagePc.waiting]⟩

/-- `Run` counts nothing. -/
theorem counts_of_manageTimeLast (h : ManageTime cfg fp true i m pc m' next) :
    m'.playoutCount = m.playoutCount ∧ m'.regular = m.regular ∧ m'.admitted = m.admitted := by
  cases h with
  | writeController =>
    refine ⟨rfl, ?_, rfl⟩
    change List.countP _ (m.updates ++ [_]) = List.countP _ m.updates
    rw [List.countP_append, List.countP_singleton]
    rfl
  | _ => exact ⟨rfl, rfl, rfl⟩

theorem length_le_of_spaced {l : List Nat} {a b : Nat} (h : l.Pairwise fun e e' => e + 20 ≤ e') (hab : a ≤ b + 20)
    (hlo : ∀ e ∈ l, a ≤ e) (hhi : ∀ e ∈ l, e ≤ b) : 20 * l.length + a ≤ b + 20 := by
  induction l generalizing a with
  | nil => simpa using hab
  | cons e l ih =>
    obtain ⟨hhead, htail⟩ := List.pairwise_cons.mp h
    have hmem := List.mem_cons_self (a := e) (l := l)
    have := ih (a := e + 20) htail (by have := hhi e hmem; omega) hhead
      fun e' he' => hhi e' (List.mem_cons_of_mem _ he')
    have := hlo e hmem
    rw [List.length_cons]
    omega

theorem lt_of_isSearchActive (h : isSearchActive cfg m = true) (hlimit : 0 < cfg.maxNodes) :
    m.playoutCount < cfg.maxNodes := by
  rw [isSearchActive] at h
  by_contra hle
  rw [not_lt] at hle
  simp only [hlimit, hle, and_self, if_true] at h
  split at h
  · cases h
  split at h
  · cases h
  split at h
  · cases h
  · cases h

theorem searcher_injective : Function.Injective (@Party.searcher κ) := fun _ _ h => Party.searcher.inj h

variable [DecidableEq κ]

/-- What the steps of `Run` and of the outside count. -/
theorem counts_of_other {t t' : Local F D} (h : Act cfg fp i m t m' t') (hi : ∀ k, Party.searcher k ≠ i) :
    m'.playoutCount = m.playoutCount ∧ m'.regular = m.regular ∧ m'.admitted = m.admitted := by
  cases h with
  | join | tick | stop => exact ⟨rfl, rfl, rfl⟩
  | manageTimeLast step | managedLast step => exact counts_of_manageTimeLast step
  | _ => exact absurd rfl (hi _)

variable [Fintype κ] {c₀ c : Config κ F D}

/-- Each snapshot of a search thread has passed the interval. -/
theorem regular_le (hstart : Launched cfg fp c₀) (h : (search κ cfg fp).Reach c₀ c) :
    c.shared.regular ≤ c.shared.admitted.length := by
  have hnonneg : ∀ t : Local F D, 0 ≤ t.admitted := by
    intro t
    match t with
    | .main _ | .outside => exact le_rfl
    | .searcher _ (.manageTime .enter) | .searcher _ (.manageTime .readClock)
    | .searcher _ (.manageTime (.loadLast _)) | .searcher _ (.manageTime (.casLast _ _))
    | .searcher _ (.manageTime (.decide _)) | .searcher _ (.manageTime .release) => exact le_rfl
    | .searcher _ (.manageTime .casBusy) | .searcher _ (.manageTime .captureElapsed)
    | .searcher _ (.manageTime (.capturePlayouts _)) | .searcher _ (.manageTime (.captureRoot _ _))
    | .searcher _ (.manageTime (.readController _)) | .searcher _ (.manageTime (.writeController _ _)) =>
      exact zero_le_one
    | .searcher _ .firstCheck | .searcher _ .check | .searcher _ .playout | .searcher _ .backup
    | .searcher _ .lookAtTree | .searcher _ .done => exact le_rfl
  have hsum := h.le_sum searcher_injective (f := fun m => (m.regular : ℤ) - m.admitted.length)
    (g := fun t => -t.admitted) ?_ ?_ ?_
  · have := hsum.trans (Finset.sum_nonpos fun k _ => neg_nonpos.mpr (hnonneg _))
    omega
  · rw [Mem.regular, hstart.updates, hstart.admitted]
    refine le_of_eq (Finset.sum_eq_zero fun k _ => ?_).symm
    rw [hstart.searcher]
    rfl
  · intro k m t m' t' hact
    left
    cases hact with
    | manageTime step | managed step =>
      obtain ⟨-, hcount, -⟩ := counts_of_manageTime step
      simpa [Local.admitted, sub_neg_eq_add] using hcount
    | _ => exact le_rfl
  · intro i m t m' t' hi hact
    obtain ⟨-, hregular, hadmitted⟩ := counts_of_other hact hi
    rw [hregular, hadmitted]

/-- The iterations of the search threads allow each call that has passed the interval. -/
theorem admitted_le_allowed (hstart : Launched cfg fp c₀) (h : (search κ cfg fp).Reach c₀ c) :
    (c.shared.admitted.length : ℤ) ≤ ∑ k, (c.own (.searcher k)).allowed := by
  refine h.le_sum searcher_injective (f := fun m => (m.admitted.length : ℤ)) (g := Local.allowed) ?_ ?_ ?_
  · rw [hstart.admitted]
    refine le_of_eq (Finset.sum_eq_zero fun k _ => ?_).symm
    rw [hstart.searcher]
    rfl
  · intro k m t m' t' hact
    left
    cases hact with
    | manageTime step | managed step =>
      obtain ⟨-, -, hcount⟩ := counts_of_manageTime step
      simp only [Local.allowed, Option.elim_some, Option.elim_none] at hcount ⊢
      omega
    | backedUp between => simp only [Local.allowed]; omega
    | report turn => simp only [Local.allowed]; omega
    | lookAtTree => exact le_rfl
    | _ => exact le_rfl
  · intro i m t m' t' hi hact
    rw [(counts_of_other hact hi).2.2]

/-- The search threads count no more playouts than all of them together. -/
theorem sum_playouts_le (hstart : Launched cfg fp c₀) (h : (search κ cfg fp).Reach c₀ c) :
    ∑ k, (c.own (.searcher k)).playouts ≤ c.shared.playoutCount := by
  have hsum := h.le_sum searcher_injective (f := fun m => -(m.playoutCount : ℤ)) (g := fun t => -t.playouts) ?_ ?_ ?_
  · rw [Finset.sum_neg_distrib] at hsum
    omega
  · rw [hstart.playoutCount]
    refine le_of_eq (Finset.sum_eq_zero fun k _ => ?_).symm
    rw [hstart.searcher]
    rfl
  · intro k m t m' t' hact
    left
    cases hact with
    | manageTime step | managed step =>
      rw [(counts_of_manageTime step).1]
      exact le_rfl
    | playout | rejected | backedUp | report => simp only [Local.playouts, Nat.cast_add, Nat.cast_one]; omega
    | _ => exact le_rfl
  · intro i m t m' t' hi hact
    rw [(counts_of_other hact hi).1]

/-- In every interleaving the search threads show the controller at most one snapshot in 20 milliseconds, and at most
one for every 64 playouts. -/
theorem checks_bounded_of_reach (hstart : Launched cfg fp c₀) (h : (search κ cfg fp).Reach c₀ c) :
    20 * c.shared.regular ≤ c.shared.elapsedMs + 20 ∧ 64 * c.shared.regular ≤ c.shared.playoutCount := by
  have hregular := regular_le hstart h
  have hs := (stands_of_reach hstart h).1
  constructor
  · have := length_le_of_spaced (a := 0) hs.spaced (Nat.zero_le _) (fun _ _ => Nat.zero_le _) hs.admitted_le
    omega
  · have hallowed := admitted_le_allowed hstart h
    have hplayouts := sum_playouts_le hstart h
    have hle : ∑ k, 64 * (c.own (.searcher k)).allowed ≤ ∑ k, (c.own (.searcher k)).playouts :=
      Finset.sum_le_sum fun k _ => allowed_le _
    rw [← Finset.mul_sum] at hle
    omega

/-- In every interleaving under a node limit the playouts go beyond it by fewer than there are threads. -/
theorem playouts_bounded_of_reach (hstart : Launched cfg fp c₀) (h : (search κ cfg fp).Reach c₀ c)
    (hlimit : 0 < cfg.maxNodes) : c.shared.playoutCount + 1 ≤ cfg.maxNodes + Fintype.card κ := by
  have hnonneg : ∀ t : Local F D, 0 ≤ t.idle ∧ t.idle ≤ 1 := by
    intro t
    match t with
    | .main _ | .outside => exact ⟨zero_le_one, le_rfl⟩
    | .searcher _ .playout => exact ⟨le_rfl, zero_le_one⟩
    | .searcher _ .firstCheck | .searcher _ .check | .searcher _ .backup | .searcher _ .lookAtTree
    | .searcher _ (.manageTime _) | .searcher _ .done => exact ⟨zero_le_one, le_rfl⟩
  have hsum := h.le_sum searcher_injective (f := fun m => (m.playoutCount : ℤ) + 1 - cfg.maxNodes)
    (g := Local.idle) ?_ ?_ ?_
  · have hcard : ∑ k : κ, (c.own (.searcher k)).idle ≤ ∑ _k : κ, 1 := Finset.sum_le_sum fun k _ => (hnonneg _).2
    rw [Finset.sum_const, Finset.card_univ, nsmul_one] at hcard
    omega
  · rw [hstart.playoutCount]
    refine le_trans ?_ (Finset.sum_nonneg fun k _ => (hnonneg _).1)
    omega
  · intro k m t m' t' hact
    cases hact with
    | active active =>
      -- the playout that begins is allowed by the limit
      have := lt_of_isSearchActive active hlimit
      exact Or.inr ⟨by omega, fun x => (hnonneg x).1⟩
    | discarded => exact Or.inl (sub_le_sub_left zero_le_one _)
    | playout =>
      refine Or.inl ?_
      simp only [Local.idle]
      push_cast
      omega
    | manageTime step | managed step =>
      rw [(counts_of_manageTime step).1]
      exact Or.inl le_rfl
    | _ => exact Or.inl le_rfl
  · intro i m t m' t' hi hact
    rw [(counts_of_other hact hi).1]

end Counting

/-! ## Two searches with one thread -/

/-- Five minutes on the clock and ten seconds of byoyomi at move 20. -/
def fiveMinutes : Control := ⟨300000, 0, 10000, 0, 20, true, false, false, false⟩

theorem exists_budget : ∃ b, compute fiveMinutes defaultOptions = some b ∧ b.mode = .on ∧
    b.hasAdaptiveDeadline = true ∧ b.latestSearchMs = 19444 := by
  have hcompute : (compute fiveMinutes defaultOptions).map
      (fun b => (b.mode, b.hasAdaptiveDeadline, b.latestSearchMs)) = some (.on, true, 19444) := by decide +kernel
  obtain ⟨b, hb, hfields⟩ := Option.map_eq_some_iff.mp hcompute
  rw [Prod.mk.injEq, Prod.mk.injEq] at hfields
  exact ⟨b, hb, hfields⟩

theorem managed_of_on {b : Budget} (maxNodes : Nat) (hmode : b.mode = .on) (hdeadline : b.hasAdaptiveDeadline = true) :
    (⟨maxNodes, none, 0, b⟩ : SearchConfig).Managed := by
  refine ⟨?_, hdeadline⟩
  change b.mode ≠ .off
  rw [hmode]
  decide

/-- The memory when the search thread is launched. -/
def launchedMem (fp : FloatOps ℚ ℚ) (b : Budget) : Mem Unit ℚ ℚ where
  stop := false
  adaptiveStop := false
  treeFull := false
  playoutCount := 0
  elapsedMs := 0
  lastTimeCheckMs := -1000000
  timeCheckBusy := false
  timeController := .reset fp b.toTimeBudget 1
  joined := fun _ => false
  holder := none
  admitted := []
  updates := []

def launched (b : Budget) : Config Unit ℚ ℚ where
  shared := launchedMem exactOps b
  own
    | .main => .main .join
    | .searcher _ => .searcher 0 .firstCheck
    | .outside => .outside

theorem launched_launched (cfg : SearchConfig) : Launched cfg exactOps (launched cfg.timeBudget) :=
  ⟨rfl, rfl, rfl, rfl, rfl, fun _ => rfl, rfl, rfl, rfl, rfl, fun _ => rfl, rfl⟩

/-- A root after one playout. -/
def onePlayout (ms : Nat) : RootSearchSnapshot ℚ := ⟨ms, 1, 0, 1, 1, 0, 1 / 2, 1 / 2, false⟩

/-- A search of one node: the thread ends, and some time later `Run` shows the controller the root. -/
theorem exists_oneNode (b : Budget) (ms : Nat) (hmode : b.mode = .on) (hdeadline : b.hasAdaptiveDeadline = true) :
    ∃ c, (search Unit ⟨1, none, 0, b⟩ exactOps).Reach (launched b) c ∧ c.own .main = .main .managed ∧
      c.shared.updates = [(true, onePlayout ms)] ∧ c.shared.playoutCount = 1 ∧ (∀ i, ¬(c.own i).Holds) := by
  have hmanaged := managed_of_on 1 hmode hdeadline
  have hms : (onePlayout ms).elapsedMs = ((0 + ms : Nat) : Int) := by
    rw [Nat.zero_add]
    rfl
  have h0 : (search Unit ⟨1, none, 0, b⟩ exactOps).Reach (launched b) (launched b) := .start
  have h1 := h0.step_of_act (i := Party.searcher ()) (Act.firstActive rfl)
  have h2 := h1.go_on (Act.active rfl)
  have h3 := h2.go_on (Act.playout)
  have h4 := h3.go_on (Act.backedUp (by decide))
  have h5 := h4.go_on (Act.inactive rfl)
  have h6 := h5.step_of_act (i := Party.outside) (Act.tick ms)
  have h7 := h6.step_of_act (i := Party.main) (Act.join fun _ => rfl)
  have h8 := h7.go_on (Act.manageTimeLast (.enter hmanaged))
  have h9 := h8.go_on (Act.manageTimeLast .readClock)
  have h10 := h9.go_on (Act.manageTimeLast (.loadLast (-1000000) (Or.inl rfl)))
  have h11 := h10.go_on (Act.manageTimeLast (.casLast rfl))
  have h12 := h11.go_on (Act.manageTimeLast (.acquire rfl))
  have h13 := h12.go_on (Act.manageTimeLast .captureElapsed)
  have h14 := h13.go_on (Act.manageTimeLast .capturePlayouts)
  have h15 := h14.go_on (Act.manageTimeLast (.captureRoot (s := onePlayout ms) hms rfl))
  have h16 := h15.go_on (Act.manageTimeLast .readController)
  have h17 := h16.go_on (Act.manageTimeLast .writeController)
  have h18 := h17.go_on (Act.manageTimeLast .decide)
  have h19 := h18.go_on (Act.managedLast .release)
  refine ⟨_, h19, rfl, rfl, rfl, fun i => ?_⟩
  cases i <;> exact id

theorem serialized_oneNode : ∃ (cfg : SearchConfig) (c : Config Unit ℚ ℚ),
    c.shared.updates = [(true, onePlayout 20000)] ∧ Serialized cfg exactOps c := by
  obtain ⟨b, -, hmode, hdeadline, -⟩ := exists_budget
  obtain ⟨c, hreach, -, hupdates, -, -⟩ := exists_oneNode b 20000 hmode hdeadline
  exact ⟨_, c, hupdates, serialized_of_reach (launched_launched _) hreach⟩

theorem final_update_oneNode : ∃ (c : Config Unit ℚ ℚ) (l : List _) (s : _), c.shared.updates = l ++ [(true, s)] ∧
    s.newPlayouts = (c.shared.playoutCount : Int) := by
  obtain ⟨b, -, hmode, hdeadline, -⟩ := exists_budget
  obtain ⟨c, hreach, hmain, -, -, -⟩ := exists_oneNode b 20000 hmode hdeadline
  have hmanaged := managed_of_on 1 hmode hdeadline
  obtain ⟨l, s, hupdates, hplayouts, -, -⟩ := final_update_of_reach (launched_launched _) hreach hmanaged hmain
  exact ⟨c, l, s, hupdates, hplayouts⟩

/-- After 20 seconds it is later than the latest time. -/
theorem stopped_oneNode : ∃ c : Config Unit ℚ ℚ, c.shared.adaptiveStop = true := by
  obtain ⟨b, hbudget, hmode, hdeadline, hlatest⟩ := exists_budget
  obtain ⟨c, hreach, -, hupdates, -, hno⟩ := exists_oneNode b 20000 hmode hdeadline
  have hmanaged := managed_of_on 1 hmode hdeadline
  refine ⟨c, (stopped_of_reach hbudget hmanaged (launched_launched _) hreach).2 hmode hno (true, onePlayout 20000) ?_
    (Or.inr ?_)⟩
  · rw [hupdates]
    exact List.mem_singleton_self _
  · rw [hlatest]
    decide

theorem playouts_bounded_oneNode : ∃ c : Config Unit ℚ ℚ, c.shared.playoutCount = 1 ∧
    c.shared.playoutCount + 1 ≤ 1 + Fintype.card Unit := by
  obtain ⟨b, -, hmode, hdeadline, -⟩ := exists_budget
  obtain ⟨c, hreach, -, -, hplayouts, -⟩ := exists_oneNode b 20000 hmode hdeadline
  exact ⟨c, hplayouts, playouts_bounded_of_reach (launched_launched _) hreach Nat.one_pos⟩

/-- A search thread with no limits in its first playouts. -/
theorem reach_playouts (b : Budget) {n : Nat} (hn : n < 64) : (search Unit ⟨0, none, 0, b⟩ exactOps).Reach (launched b)
    ((launched b).set (.searcher ()) { launchedMem exactOps b with playoutCount := n } (.searcher n .check)) := by
  induction n with
  | zero => exact Threads.Reach.step_of_act .start (Act.firstActive rfl)
  | succ n ih =>
    have h1 := (ih (by omega)).go_on (Act.active rfl)
    have h2 := h1.go_on Act.playout
    exact h2.go_on (Act.backedUp (by omega))

/-- The first snapshot of a search thread. -/
theorem checks_bounded_first : ∃ c : Config Unit ℚ ℚ, c.shared.regular = 1 ∧
    20 * c.shared.regular ≤ c.shared.elapsedMs + 20 ∧ 64 * c.shared.regular ≤ c.shared.playoutCount := by
  obtain ⟨b, -, hmode, hdeadline, -⟩ := exists_budget
  have hmanaged := managed_of_on 0 hmode hdeadline
  have h1 := (reach_playouts b (n := 63) (by decide)).go_on (Act.active rfl)
  have h2 := h1.go_on Act.playout
  have h3 := h2.go_on (Act.report rfl)
  have h4 := h3.go_on (Act.lookAtTree false (fun hno => by cases hno))
  have h5 := h4.go_on (Act.manageTime (.enter hmanaged))
  have h6 := h5.go_on (Act.manageTime .readClock)
  have hlate : (20 : Int) ≤ ((0 : Nat) : Int) - -1000000 := by decide
  have h7 := h6.go_on (Act.manageTime (.loadLast (-1000000) (Or.inr hlate)))
  have h8 := h7.go_on (Act.manageTime (.casLast rfl))
  have h9 := h8.go_on (Act.manageTime (.acquire rfl))
  have h10 := h9.go_on (Act.manageTime .captureElapsed)
  have h11 := h10.go_on (Act.manageTime .capturePlayouts)
  have h12 := h11.go_on (Act.manageTime (.captureRoot (s := ⟨0, 64, 0, 1, 64, 0, 1 / 2, 1 / 2, false⟩) rfl rfl))
  have h13 := h12.go_on (Act.manageTime .readController)
  have h14 := h13.go_on (Act.manageTime .writeController)
  exact ⟨_, rfl, checks_bounded_of_reach (launched_launched _) h14⟩

end Shogi.ParallelSearch
