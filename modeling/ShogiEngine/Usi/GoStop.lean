import Mathlib.Data.Fintype.Card
import ShogiEngine.Library.Threads

/-!
# Stop requests during `go`

`Search::Run` clears the stop flag when it begins; by then the watchdog is already running. The
threads of one `go` from the launch of the watchdog to the return of `Run`.

## Main definitions

- `go`: the threads
- `Obeyed`: a stop request is in force
- `Premature`: the watchdog stops the search before `Run` has cleared the flag

## Main results

- `obeyed_of_run`: if the watchdog is not premature, a stop request stays in force
-/

namespace Shogi.GoStop

/-- The threads: `CmdGo` with `Run`, the watchdog, the mate worker, the search threads and, for the
clock, one more. -/
inductive Party (κ : Type)
  | usi
  | watchdog
  | mate
  | searcher (i : κ)
  | clock
  deriving DecidableEq

/-- The limits of the search: no limit where zero. -/
structure Limits where
  maxNodes : Nat
  maxTimeMs : Nat
  hardDeadlineMs : Nat

/-- The memory of `Search` and of the launch; `stopCalled` remembers that `Stop` has been called. -/
structure Mem where
  stop : Bool
  adaptiveStop : Bool
  treeFull : Bool
  playouts : Nat
  elapsedMs : Nat
  started : Bool
  launched : Bool
  running : Nat
  watchdogFired : Bool
  stopCalled : Bool

/-- `IsSearchActive`. -/
def isSearchActive (l : Limits) (m : Mem) : Bool :=
  if m.stop then false
  else if m.adaptiveStop then false
  else if m.treeFull then false
  else if 0 < l.maxNodes ∧ l.maxNodes ≤ m.playouts then false
  else if 0 < l.maxTimeMs ∧ l.maxTimeMs ≤ m.elapsedMs then false
  else true

/-- `Search::Stop`. -/
def Mem.callStop (m : Mem) : Mem := { m with stop := true, stopCalled := true }

/-- Where `Run` stands. -/
inductive UsiPc
  | clearStop
  | clearAdaptiveStop
  | clearTreeFull
  | clearPlayouts
  | onSearchStarted
  | legalMoves
  | launch
  | join
  | manageTime
  | rejectRootMates
  | returned
  deriving DecidableEq, Repr

inductive WatchdogPc
  | waiting
  | callStop
  | done
  deriving DecidableEq, Repr

inductive MatePc
  | waitForStart
  | search
  | callStop
  | done
  deriving DecidableEq, Repr

inductive SearcherPc
  | notStarted
  | firstCheck
  | check
  | playout
  | done
  deriving DecidableEq, Repr

inductive Local
  | usi (pc : UsiPc)
  | watchdog (pc : WatchdogPc)
  | mate (pc : MatePc)
  | searcher (pc : SearcherPc)
  | clock
  deriving DecidableEq, Repr

/-- The steps, with `n` search threads. -/
inductive Act {κ : Type} (l : Limits) (n : Nat) : Party κ → Mem → Local → Mem → Local → Prop
  | clearStop {m : Mem} :
      Act l n .usi m (.usi .clearStop) { m with stop := false } (.usi .clearAdaptiveStop)
  | clearAdaptiveStop {m : Mem} :
      Act l n .usi m (.usi .clearAdaptiveStop) { m with adaptiveStop := false }
        (.usi .clearTreeFull)
  | clearTreeFull {m : Mem} :
      Act l n .usi m (.usi .clearTreeFull) { m with treeFull := false } (.usi .clearPlayouts)
  | clearPlayouts {m : Mem} :
      Act l n .usi m (.usi .clearPlayouts) { m with playouts := 0 } (.usi .onSearchStarted)
  | onSearchStarted {m : Mem} :
      Act l n .usi m (.usi .onSearchStarted) { m with started := true } (.usi .legalMoves)
  /-- No legal move or only one. -/
  | returnEarly {m : Mem} : Act l n .usi m (.usi .legalMoves) m (.usi .returned)
  | expandRoot {m : Mem} : Act l n .usi m (.usi .legalMoves) m (.usi .launch)
  | launch {m : Mem} :
      Act l n .usi m (.usi .launch) { m with launched := true, running := n } (.usi .join)
  | join {m : Mem} (joined : m.running = 0) : Act l n .usi m (.usi .join) m (.usi .manageTime)
  | manageTime {m : Mem} {b : Bool} :
      Act l n .usi m (.usi .manageTime) { m with adaptiveStop := m.adaptiveStop || b }
        (.usi .rejectRootMates)
  /-- A look of the root mate guard at its stop flag. -/
  | probe {m : Mem} (goesOn : m.stop = false) :
      Act l n .usi m (.usi .rejectRootMates) m (.usi .rejectRootMates)
  | buildResult {m : Mem} : Act l n .usi m (.usi .rejectRootMates) m (.usi .returned)
  | fire {m : Mem} (late : 0 < l.hardDeadlineMs ∧ l.hardDeadlineMs ≤ m.elapsedMs) :
      Act l n .watchdog m (.watchdog .waiting) { m with watchdogFired := true }
        (.watchdog .callStop)
  | watchdogStop {m : Mem} :
      Act l n .watchdog m (.watchdog .callStop) m.callStop (.watchdog .done)
  /-- `WaitForStart` returns `true` only after `Start`. -/
  | waitForStart {m : Mem} (started : m.started = true) :
      Act l n .mate m (.mate .waitForStart) m (.mate .search)
  | mateProved {m : Mem} : Act l n .mate m (.mate .search) m (.mate .callStop)
  | mateNotProved {m : Mem} : Act l n .mate m (.mate .search) m (.mate .done)
  | mateStop {m : Mem} : Act l n .mate m (.mate .callStop) m.callStop (.mate .done)
  | begin {m : Mem} {i : κ} (launched : m.launched = true) :
      Act l n (.searcher i) m (.searcher .notStarted) m (.searcher .firstCheck)
  | firstActive {m : Mem} {i : κ} (active : isSearchActive l m = true) :
      Act l n (.searcher i) m (.searcher .firstCheck) m (.searcher .check)
  | firstInactive {m : Mem} {i : κ} (inactive : isSearchActive l m = false) :
      Act l n (.searcher i) m (.searcher .firstCheck) { m with running := m.running - 1 }
        (.searcher .done)
  | active {m : Mem} {i : κ} (active : isSearchActive l m = true) :
      Act l n (.searcher i) m (.searcher .check) m (.searcher .playout)
  | inactive {m : Mem} {i : κ} (inactive : isSearchActive l m = false) :
      Act l n (.searcher i) m (.searcher .check) { m with running := m.running - 1 }
        (.searcher .done)
  /-- A playout, perhaps with a stop by the adaptive controller or for a full tree. -/
  | playout {m : Mem} {i : κ} {a t : Bool} :
      Act l n (.searcher i) m (.searcher .playout)
        { m with
          playouts := m.playouts + 1
          adaptiveStop := m.adaptiveStop || a
          treeFull := m.treeFull || t }
        (.searcher .check)
  /-- A playout whose backup is rejected stops the search. -/
  | rejected {m : Mem} {i : κ} :
      Act l n (.searcher i) m (.searcher .playout)
        { m.callStop with playouts := m.playouts + 1, running := m.running - 1 } (.searcher .done)
  | tick {m : Mem} {k : Nat} :
      Act l n .clock m .clock { m with elapsedMs := m.elapsedMs + k } .clock

/-- One `go`. -/
def go (κ : Type) [Fintype κ] (l : Limits) : Threads (Party κ) Mem Local :=
  ⟨Act l (Fintype.card κ)⟩

abbrev Config (κ : Type) := Threads.Config (Party κ) Mem Local

/-- The watchdog has just been started; the flags of `Search` are as the last search left them. -/
def Launched {κ : Type} (c : Config κ) : Prop :=
  c.shared.started = false ∧ c.shared.launched = false ∧ c.shared.stopCalled = false ∧
    c.own .usi = .usi .clearStop ∧ c.own .watchdog = .watchdog .waiting ∧
    c.own .mate = .mate .waitForStart ∧ (∀ i, c.own (.searcher i) = .searcher .notStarted) ∧
    c.own .clock = .clock

/-- If `Stop` has been called, the search threads see the search as inactive and the root mate guard
sees its flag set, until `Run` returns. -/
def Obeyed {κ : Type} (l : Limits) (c : Config κ) : Prop :=
  c.shared.stopCalled = true → c.own .usi ≠ .usi .returned →
    isSearchActive l c.shared = false ∧ c.shared.stop = true

/-- The watchdog is about to stop a search that `Run` has not begun. -/
def Premature {κ : Type} (i : Party κ) (c : Config κ) : Prop :=
  i = .watchdog ∧ c.own .watchdog = .watchdog .callStop ∧ c.own .usi = .usi .clearStop

/-! ## What the threads wait for -/

section Waiting

variable {κ : Type} {l : Limits} {n : Nat} {i j : Party κ} {m m' : Mem} {t t' x : Local}

/-- `Run` is past the calls that let the other threads begin. -/
def UsiPc.BeforeStart : UsiPc → Prop
  | clearStop | clearAdaptiveStop | clearTreeFull | clearPlayouts | onSearchStarted => True
  | _ => False

def UsiPc.BeforeLaunch : UsiPc → Prop
  | legalMoves | launch => True
  | pc => pc.BeforeStart

/-- The mate worker and the search threads begin when `Run` lets them. -/
def Waits (i : Party κ) (m : Mem) : Local → Prop
  | .usi pc => i = .usi ∧ (pc.BeforeStart → m.started = false) ∧
      (pc.BeforeLaunch → m.launched = false)
  | .watchdog _ => i = .watchdog
  | .mate pc => i = .mate ∧ (pc ≠ .waitForStart → m.started = true)
  | .searcher pc => (∃ k, i = .searcher k) ∧ (pc ≠ .notStarted → m.launched = true)
  | .clock => i = .clock

/-- Only `Run` lets the others begin. -/
theorem act_frame (h : Act l n i m t m' t') :
    (m.started = true → m'.started = true) ∧ (m.launched = true → m'.launched = true) ∧
      (i ≠ .usi → m'.started = m.started ∧ m'.launched = m.launched) := by
  cases h with
  | onSearchStarted => exact ⟨fun _ => rfl, id, fun hne => absurd rfl hne⟩
  | launch => exact ⟨id, fun _ => rfl, fun hne => absurd rfl hne⟩
  | _ => exact ⟨id, id, fun _ => ⟨rfl, rfl⟩⟩

theorem Waits.own (h : Waits i m t) (hact : Act l n i m t m' t') : Waits i m' t' := by
  cases hact with
  | clearStop | clearAdaptiveStop | clearTreeFull | clearPlayouts =>
    exact ⟨rfl, fun _ => h.2.1 trivial, fun _ => h.2.2 trivial⟩
  | onSearchStarted => exact ⟨rfl, fun hpc => hpc.elim, fun _ => h.2.2 trivial⟩
  | expandRoot => exact ⟨rfl, fun hpc => hpc.elim, fun _ => h.2.2 trivial⟩
  | returnEarly | launch | join | manageTime | probe | buildResult =>
    exact ⟨rfl, fun hpc => hpc.elim, fun hpc => hpc.elim⟩
  | fire | watchdogStop => rfl
  | waitForStart started => exact ⟨rfl, fun _ => started⟩
  | mateProved | mateNotProved | mateStop => exact ⟨rfl, fun _ => h.2 (by simp)⟩
  | begin launched => exact ⟨h.1, fun _ => launched⟩
  | firstActive | firstInactive | active | inactive | playout | rejected =>
    exact ⟨h.1, fun _ => h.2 (by simp)⟩
  | tick => rfl

theorem Waits.other (hj : Waits j m x) (hne : j ≠ i) (hact : Act l n i m t m' t') :
    Waits j m' x := by
  obtain ⟨hstarted, hlaunched, hsame⟩ := act_frame hact
  cases x with
  | usi pc =>
    obtain ⟨rfl, h1, h2⟩ := hj
    obtain ⟨hs, hl⟩ := hsame hne.symm
    exact ⟨rfl, fun hpc => hs.trans (h1 hpc), fun hpc => hl.trans (h2 hpc)⟩
  | watchdog pc => exact hj
  | mate pc => exact ⟨hj.1, fun hpc => hstarted (hj.2 hpc)⟩
  | searcher pc => exact ⟨hj.1, fun hpc => hlaunched (hj.2 hpc)⟩
  | clock => exact hj

theorem waits_of_launched {c₀ : Config κ} (h : Launched c₀) (i : Party κ) : Waits i c₀.shared (c₀.own i) := by
  obtain ⟨hstarted, hlaunched, -, husi, hdog, hmate, hsearchers, hclock⟩ := h
  cases i with
  | usi =>
    rw [husi]
    exact ⟨rfl, fun _ => hstarted, fun _ => hlaunched⟩
  | watchdog =>
    rw [hdog]
    rfl
  | mate =>
    rw [hmate]
    exact ⟨rfl, fun h => absurd rfl h⟩
  | searcher k =>
    rw [hsearchers]
    exact ⟨⟨k, rfl⟩, fun h => absurd rfl h⟩
  | clock =>
    rw [hclock]
    rfl

/-! ## The stop flag -/

/-- Who stops the search while `Run` has not begun: neither the mate worker nor a search thread. -/
theorem premature_of_act {c : Config κ}
    (hwaits : ∀ i, Waits i c.shared (c.own i))
    (hact : Act l n i c.shared (c.own i) m' t')
    (hbegin : c.own .usi = .usi .clearStop) (hcall : c.shared.stopCalled = false)
    (hcalled : m'.stopCalled = true) : Premature i c := by
  have husi := hwaits .usi
  rw [hbegin] at husi
  have hstarted := husi.2.1 trivial
  have hlaunched := husi.2.2 trivial
  have hi := hwaits i
  generalize ht : c.own i = t at hact hi
  generalize c.shared = m at *
  cases hact with
  | watchdogStop => exact ⟨rfl, ht, hbegin⟩
  | mateStop =>
    have := hi.2 (by simp)
    rw [hstarted] at this
    cases this
  | rejected =>
    have := hi.2 (by simp)
    rw [hlaunched] at this
    cases this
  | _ => exact absurd (hcall.symm.trans hcalled) (by simp)

/-- A step other than the first of `Run` does not clear the flag. -/
theorem stop_of_act (hact : Act l n i m t m' t') (hne : t ≠ .usi .clearStop)
    (hstop : m.stopCalled = true → m.stop = true) (hcalled : m'.stopCalled = true) :
    m'.stop = true := by
  cases hact with
  | clearStop => exact absurd rfl hne
  | watchdogStop | mateStop | rejected => rfl
  | _ => exact hstop hcalled

/-- After the first step of `Run` its thread does not come back to it. -/
theorem usi_of_act (hact : Act l n i m t m' t') : t' ≠ .usi .clearStop := by
  cases hact <;> simp

theorem isSearchActive_of_stop {m : Mem} (h : m.stop = true) : isSearchActive l m = false := by
  rw [isSearchActive, if_pos h]

end Waiting

section Runs

variable {κ : Type} [DecidableEq κ] [Fintype κ] {l : Limits}
  {ok : Party κ → Config κ → Prop} {c₀ c : Config κ}

theorem waits_of_run (hstart : Launched c₀) (h : (go κ l).Run ok c₀ c) (i : Party κ) :
    Waits i c.shared (c.own i) :=
  (h.thread_invariant (I := fun _ => True) (J := Waits) ⟨trivial, waits_of_launched hstart⟩
    (fun _ _ _ _ _ _ hj hact => ⟨trivial, hj.own hact⟩)
    (fun _ _ _ _ _ _ _ _ _ hj hne hact => hj.other hne hact)).2 i

/-- Before `Run` has cleared the flag no one has called `Stop`, and after it the flag is set once
someone has. -/
def StopKept (c : Config κ) : Prop :=
  (c.own .usi = .usi .clearStop → c.shared.stopCalled = false) ∧
    (c.shared.stopCalled = true → c.shared.stop = true)

theorem StopKept.step {i : Party κ} {c' : Config κ} (h : StopKept c)
    (hwaits : ∀ i, Waits i c.shared (c.own i)) (hok : ¬ Premature i c)
    (hstep : (go κ l).Step i c c') : StopKept c' := by
  obtain ⟨m', t', hact, rfl⟩ := hstep
  by_cases hi : i = .usi
  · subst hi
    refine ⟨fun hpc => ?_, fun hcalled => ?_⟩
    · rw [Threads.Config.own_set_self] at hpc
      exact absurd hpc (usi_of_act hact)
    · rw [Threads.Config.shared_set] at hcalled ⊢
      by_cases hpc : c.own .usi = .usi .clearStop
      · -- `Run` clears a flag that no one has set
        have hnot := h.1 hpc
        have hact' := hact
        rw [hpc] at hact'
        generalize c.shared = m at *
        cases hact'
        exact absurd (hnot.symm.trans hcalled) (by simp)
      · exact stop_of_act hact hpc h.2 hcalled
  · have hne : c.own i ≠ .usi .clearStop := by
      intro hpc
      have := hwaits i
      rw [hpc] at this
      exact hi this.1
    refine ⟨fun hpc => ?_, fun hcalled => stop_of_act hact hne h.2 hcalled⟩
    rw [Threads.Config.own_set_of_ne (Ne.symm hi)] at hpc
    by_contra hcalled
    exact hok (premature_of_act hwaits hact hpc (h.1 hpc) (by simpa using hcalled))

theorem stopKept_of_run (hstart : Launched c₀) (hok : ∀ i c, ok i c → ¬ Premature i c)
    (h : (go κ l).Run ok c₀ c) : StopKept c := by
  induction h with
  | start =>
    refine ⟨fun _ => hstart.2.2.1, fun hcalled => ?_⟩
    rw [hstart.2.2.1] at hcalled
    cases hcalled
  | step run met step ih => exact ih.step (waits_of_run hstart run) (hok _ _ met) step

/-- In every run in which the watchdog does not stop the search before `Run` has cleared its flag, a
stop request is obeyed in every state. -/
theorem obeyed_of_run (hstart : Launched c₀) (h : (go κ l).Run (fun i c => ¬ Premature i c) c₀ c) :
    Obeyed l c := by
  intro hcalled _
  have hstop := (stopKept_of_run hstart (fun _ _ hmet => hmet) h).2 hcalled
  exact ⟨isSearchActive_of_stop hstop, hstop⟩

end Runs

/-! ## A short move time -/

/-- One search thread, no node limit, half a second for the search and a deadline before that. -/
def shortMove : Limits := ⟨0, 500, 100⟩

/-- After a search that has not been stopped. -/
def afterSearch : Config Unit where
  shared := ⟨false, false, false, 0, 0, false, false, 0, false, false⟩
  own
    | .usi => .usi .clearStop
    | .watchdog => .watchdog .waiting
    | .mate => .mate .waitForStart
    | .searcher _ => .searcher .notStarted
    | .clock => .clock

theorem launched_afterSearch : Launched afterSearch :=
  ⟨rfl, rfl, rfl, rfl, rfl, rfl, fun _ => rfl, rfl⟩

/-- The deadline passes once `Run` has begun. -/
theorem obeyed_shortMove : ∃ c : Config Unit, c.shared.stopCalled = true ∧ Obeyed shortMove c := by
  have h0 : (go Unit shortMove).Run (fun i c => ¬ Premature i c) afterSearch afterSearch := .start
  have h1 := h0.step (i := Party.usi) (fun h => by cases h.1) ⟨_, _, Act.clearStop, rfl⟩
  have h2 := h1.step (i := Party.clock) (fun h => by cases h.1) ⟨_, _, Act.tick (k := 100), rfl⟩
  have h3 := h2.step (i := Party.watchdog) (fun h => by cases h.2.1)
    ⟨_, _, Act.fire (by decide), rfl⟩
  have h4 := h3.step (i := Party.watchdog) (fun h => by cases h.2.2) ⟨_, _, Act.watchdogStop, rfl⟩
  exact ⟨_, rfl, obeyed_of_run launched_afterSearch h4⟩

/-- The deadline passes before `Run` has begun, which then clears the flag. -/
theorem not_obeyed_shortMove : ¬ ∀ (l : Limits) (c₀ c : Config Unit), Launched c₀ →
    (go Unit l).Reach c₀ c → Obeyed l c := by
  intro hall
  have h0 : (go Unit shortMove).Reach afterSearch afterSearch := .start
  have h1 := h0.step (i := Party.clock) trivial ⟨_, _, Act.tick (k := 100), rfl⟩
  have h2 := h1.step (i := Party.watchdog) trivial ⟨_, _, Act.fire (by decide), rfl⟩
  have h3 := h2.step (i := Party.watchdog) trivial ⟨_, _, Act.watchdogStop, rfl⟩
  have h4 := h3.step (i := Party.usi) trivial ⟨_, _, Act.clearStop, rfl⟩
  have hobeyed := hall _ _ _ launched_afterSearch h4 rfl (by decide)
  exact absurd hobeyed.2 (by decide)

end Shogi.GoStop
