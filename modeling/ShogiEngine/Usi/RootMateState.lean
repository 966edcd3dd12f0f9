import Mathlib.Algebra.BigOperators.Fin
import Mathlib.Algebra.Order.BigOperators.Group.Finset
import Mathlib.Data.Fintype.Option
import ShogiEngine.Library.Threads

/-!
# The handshake of the root mate worker

`RootMateState`: one worker in `WaitForStart`, any number of threads that call `Start` and `Stop`.
The mutex, the condition variable and the two flags are taken step by step; a notification reaches
only a worker that is already waiting.

## Main definitions

- `handshake`: the threads
- `LostWakeup`: the worker sleeps, though there is reason to wake up and no one left to say so
- `Missed`: the last notification falls between the worker's test and its sleep

## Main results

- `no_lostWakeup`: without a missed notification no wakeup is lost
- `not_missed_of_start`: with a `Start` to come, or under way, none is missed
-/

namespace Shogi.RootMate

/-! ## Memory and threads -/

/-- The calls of the other threads. -/
inductive Call
  | start
  | stop
  deriving DecidableEq, Repr

/-- The steps of a call. -/
inductive Op
  | lock
  | setStarted
  | unlock
  | storeStop
  | stopSolver
  | notifyAll
  deriving DecidableEq, Repr

/-- `Start` and `Stop`. -/
def Call.ops : Call → List Op
  | start => [.lock, .setStarted, .unlock, .notifyAll]
  | stop => [.storeStop, .stopSolver, .notifyAll]

/-- Where `WaitForStart` stands. The predicate of `wait` and the returned expression each read
`started` first. -/
inductive WaitPc
  | lock
  | testStarted
  | testStop
  | sleep
  | asleep
  | returnStarted
  | returnStop
  | unlock (result : Bool)
  | done (result : Bool)
  deriving DecidableEq, Repr

/-- The state of a thread: the worker with a note whether it has seen `stop_requested` set, or a
caller with the steps it has left. -/
inductive Local
  | worker (pc : WaitPc) (sawStop : Bool)
  | caller (ops : List Op)
  deriving DecidableEq, Repr

/-- `RootMateState`. The mutex is held by the worker (`some none`) or a caller; `waiting` says that
the worker is blocked in `start_cv.wait`. -/
structure Mem (κ : Type) where
  owner : Option (Option κ)
  started : Bool
  stopRequested : Bool
  solverStopped : Bool
  waiting : Bool

variable {κ : Type}

/-- A step of a caller; `lock` waits for the mutex. -/
def Op.run (i : κ) (m : Mem κ) : Op → Option (Mem κ)
  | lock => if m.owner.isNone then some { m with owner := some (some i) } else none
  | setStarted => some { m with started := true }
  | unlock => some { m with owner := none }
  | storeStop => some { m with stopRequested := true }
  | stopSolver => some { m with solverStopped := true }
  | notifyAll => some { m with waiting := false }

/-- The steps of the threads; the worker is thread `none`. -/
inductive Act : Option κ → Mem κ → Local → Mem κ → Local → Prop
  | lock {m : Mem κ} {saw : Bool} (free : m.owner = none) :
      Act none m (.worker .lock saw) { m with owner := some none } (.worker .testStarted saw)
  | testStarted {m : Mem κ} {saw : Bool} :
      Act none m (.worker .testStarted saw) m
        (.worker (if m.started then .returnStarted else .testStop) saw)
  | testStop {m : Mem κ} {saw : Bool} :
      Act none m (.worker .testStop saw) m
        (.worker (if m.stopRequested then .returnStarted else .sleep) (saw || m.stopRequested))
  /-- `wait` gives the mutex back and blocks in one step. -/
  | sleep {m : Mem κ} {saw : Bool} :
      Act none m (.worker .sleep saw) { m with owner := none, waiting := true }
        (.worker .asleep saw)
  /-- A wakeup without a notification. -/
  | spurious {m : Mem κ} {saw : Bool} (waits : m.waiting = true) :
      Act none m (.worker .asleep saw) { m with waiting := false } (.worker .asleep saw)
  | relock {m : Mem κ} {saw : Bool} (awake : m.waiting = false) (free : m.owner = none) :
      Act none m (.worker .asleep saw) { m with owner := some none } (.worker .testStarted saw)
  | returnStarted {m : Mem κ} {saw : Bool} :
      Act none m (.worker .returnStarted saw) m
        (.worker (if m.started then .returnStop else .unlock false) saw)
  | returnStop {m : Mem κ} {saw : Bool} :
      Act none m (.worker .returnStop saw) m
        (.worker (.unlock !m.stopRequested) (saw || m.stopRequested))
  | unlock {m : Mem κ} {result saw : Bool} :
      Act none m (.worker (.unlock result) saw) { m with owner := none }
        (.worker (.done result) saw)
  | call {m m' : Mem κ} {i : κ} {op : Op} {ops : List Op} (run : op.run i m = some m') :
      Act (some i) m (.caller (op :: ops)) m' (.caller ops)

/-- The worker and the callers. -/
def handshake (κ : Type) : Threads (Option κ) (Mem κ) Local := ⟨Act⟩

abbrev Config (κ : Type) := Threads.Config (Option κ) (Mem κ) Local

/-- A fresh `RootMateState`, before the first step of `WaitForStart` and of the callers. -/
def fresh (calls : κ → List Call) : Config κ where
  shared := ⟨none, false, false, false, false⟩
  own i := i.elim (.worker .lock false) fun k => .caller ((calls k).flatMap Call.ops)

/-! ## What can go wrong -/

/-- A call that has not made its notification yet, or is still to come. -/
def Outstanding (c : Config κ) (k : κ) : Prop :=
  ∃ ops, c.own (some k) = .caller ops ∧ .notifyAll ∈ ops

/-- The worker is blocked in `wait` with `started` or `stop_requested` set and no notification to
come. -/
def LostWakeup (c : Config κ) : Prop :=
  (∃ saw, c.own none = .worker .asleep saw) ∧ c.shared.waiting = true ∧
    (c.shared.started = true ∨ c.shared.stopRequested = true) ∧ ∀ k, ¬ Outstanding c k

/-- Thread `i` makes the last outstanding notification while the worker, having found
`stop_requested` clear, is about to sleep, and `stop_requested` has been set in between. -/
def Missed (i : Option κ) (c : Config κ) : Prop :=
  (∃ saw, c.own none = .worker .sleep saw) ∧ c.shared.stopRequested = true ∧
    ∃ k, i = some k ∧ c.own (some k) = .caller [.notifyAll] ∧ ∀ j, j ≠ k → ¬ Outstanding c j

/-! ## What the callers have left -/

/-- The steps that a caller may have left: the rest of one call and all of some others. -/
inductive Rest : List Op → Prop
  | idle (calls : List Call) : Rest (calls.flatMap Call.ops)
  | setStarted (calls : List Call) :
      Rest (.setStarted :: .unlock :: .notifyAll :: calls.flatMap Call.ops)
  | unlock (calls : List Call) : Rest (.unlock :: .notifyAll :: calls.flatMap Call.ops)
  | stopSolver (calls : List Call) : Rest (.stopSolver :: .notifyAll :: calls.flatMap Call.ops)
  | notifyAll (calls : List Call) : Rest (.notifyAll :: calls.flatMap Call.ops)

/-- The caller is inside the critical section. -/
def Critical (ops : List Op) : Prop := ops.head? = some .setStarted ∨ ops.head? = some .unlock

theorem not_critical_flatMap (calls : List Call) : ¬ Critical (calls.flatMap Call.ops) := by
  cases calls with
  | nil => simp [Critical]
  | cons call calls => cases call <;> simp [Critical, Call.ops]

/-- One step of a caller: only a notification need not be followed by one, and the critical section
lies between `lock` and `unlock`. -/
theorem Rest.next {op : Op} {ops : List Op} (h : Rest (op :: ops)) :
    Rest ops ∧ (op ≠ .notifyAll → .notifyAll ∈ ops) ∧
      (Critical ops ↔ op = .lock ∨ op = .setStarted) := by
  generalize hl : op :: ops = l at h
  cases h with
  | idle calls =>
    cases calls with
    | nil => cases hl
    | cons call calls =>
      cases call with
      | start =>
        cases hl
        exact ⟨.setStarted calls, by simp, by simp [Critical]⟩
      | stop =>
        cases hl
        exact ⟨.stopSolver calls, by simp, by simp [Critical]⟩
  | setStarted calls =>
    cases hl
    exact ⟨.unlock calls, by simp, by simp [Critical]⟩
  | unlock calls =>
    cases hl
    exact ⟨.notifyAll calls, by simp, by simp [Critical]⟩
  | stopSolver calls =>
    cases hl
    exact ⟨.notifyAll calls, by simp, by simp [Critical]⟩
  | notifyAll calls =>
    cases hl
    exact ⟨.idle calls, by simp, by simpa using not_critical_flatMap calls⟩

/-- A caller that is not through will make a notification. -/
theorem Rest.notifyAll_mem {ops : List Op} (h : Rest ops) (hne : ops ≠ []) : .notifyAll ∈ ops := by
  cases ops with
  | nil => exact absurd rfl hne
  | cons op ops =>
    by_cases hop : op = .notifyAll
    · rw [hop]
      exact List.mem_cons_self
    · exact List.mem_cons_of_mem _ (h.next.2.1 hop)

/-! ## The mutex and the flags -/

/-- The worker holds the mutex. -/
def WaitPc.Holds : WaitPc → Prop
  | lock | asleep | done _ => False
  | _ => True

/-- What the worker knows of the memory. -/
structure WorkerKnows (m : Mem κ) (pc : WaitPc) (saw : Bool) : Prop where
  mutex : pc.Holds ↔ m.owner = some none
  notStarted : pc = .testStop ∨ pc = .sleep → m.started = false
  started : pc = .returnStop → m.started = true
  sawStop : saw = true → m.stopRequested = true
  result : pc = .unlock true ∨ pc = .done true → m.started = true ∧ saw = false

/-- What a caller knows. -/
structure CallerKnows (m : Mem κ) (k : κ) (ops : List Op) : Prop where
  rest : Rest ops
  mutex : Critical ops ↔ m.owner = some (some k)

/-- What a thread knows. -/
def Knows (i : Option κ) (m : Mem κ) : Local → Prop
  | .worker pc saw => i = none ∧ WorkerKnows m pc saw
  | .caller ops => ∃ k, i = some k ∧ CallerKnows m k ops

theorem knows_fresh (calls : κ → List Call) (i : Option κ) :
    Knows i (fresh calls).shared ((fresh calls).own i) := by
  cases i with
  | none =>
    refine ⟨rfl, ⟨fun h => h.elim, fun h => by cases h⟩, ?_, ?_, ?_, ?_⟩
    all_goals simp
  | some k =>
    exact ⟨k, rfl, .idle _, fun h => absurd h (not_critical_flatMap _), fun h => by cases h⟩

theorem Knows.own {i : Option κ} {m m' : Mem κ} {t t' : Local} (h : Knows i m t)
    (hact : Act i m t m' t') : Knows i m' t' := by
  cases hact with
  | lock free =>
    exact ⟨rfl, ⟨fun _ => rfl, fun _ => trivial⟩, by simp, by simp, h.2.sawStop, by simp⟩
  | testStarted =>
    have hm := h.2.mutex.mp trivial
    refine ⟨rfl, ⟨fun _ => hm, fun _ => ?_⟩, fun hpc => ?_, fun hpc => ?_, h.2.sawStop, fun hpc => ?_⟩
    · split <;> trivial
    all_goals split at hpc <;> simp_all
  | testStop =>
    have hm := h.2.mutex.mp trivial
    have hs := h.2.notStarted (.inl rfl)
    refine ⟨rfl, ⟨fun _ => hm, fun _ => ?_⟩, fun _ => hs, fun hpc => ?_, fun hsaw => ?_,
      fun hpc => ?_⟩
    · split <;> trivial
    · split at hpc <;> cases hpc
    · exact (Bool.or_eq_true_iff.mp hsaw).elim h.2.sawStop id
    · split at hpc <;> simp at hpc
  | sleep =>
    exact ⟨rfl, ⟨fun hh => hh.elim, fun ho => by cases ho⟩, by simp, by simp, h.2.sawStop, by simp⟩
  | spurious waits =>
    exact ⟨rfl, h.2.mutex, by simp, by simp, h.2.sawStop, by simp⟩
  | relock awake free =>
    exact ⟨rfl, ⟨fun _ => rfl, fun _ => trivial⟩, by simp, by simp, h.2.sawStop, by simp⟩
  | returnStarted =>
    have hm := h.2.mutex.mp trivial
    refine ⟨rfl, ⟨fun _ => hm, fun _ => ?_⟩, fun hpc => ?_, fun hpc => ?_, h.2.sawStop, fun hpc => ?_⟩
    · split <;> trivial
    all_goals split at hpc <;> simp_all
  | returnStop =>
    have hm := h.2.mutex.mp trivial
    have hs := h.2.started rfl
    refine ⟨rfl, ⟨fun _ => hm, fun _ => trivial⟩, by simp, by simp, fun hsaw => ?_, fun hpc => ?_⟩
    · exact (Bool.or_eq_true_iff.mp hsaw).elim h.2.sawStop id
    · -- the value read last is the returned one, and an earlier one would still be set
      have hstop : m.stopRequested = false := by simpa using hpc
      refine ⟨hs, ?_⟩
      rw [hstop, Bool.or_false, ← Bool.not_eq_true]
      exact fun hsaw => Bool.false_ne_true (hstop.symm.trans (h.2.sawStop hsaw))
  | unlock =>
    refine ⟨rfl, ⟨fun hh => hh.elim, fun ho => by cases ho⟩, by simp, by simp, h.2.sawStop,
      fun hpc => ?_⟩
    exact h.2.result (.inl (by simpa using hpc))
  | call run =>
    rename_i k op ops
    obtain ⟨k', hk, hc⟩ := h
    cases hk
    obtain ⟨hrest, -, hcases⟩ := hc.rest.next
    refine ⟨k, rfl, hrest, ?_⟩
    cases op with
    | lock =>
      simp only [Op.run] at run
      split at run
      · cases run
        exact ⟨fun _ => rfl, fun _ => hcases.mpr (.inl rfl)⟩
      · cases run
    | setStarted =>
      have hm := hc.mutex.mp (.inl rfl)
      cases run
      exact ⟨fun _ => hm, fun _ => hcases.mpr (.inr rfl)⟩
    | unlock =>
      cases run
      exact ⟨fun hcrit => absurd (hcases.mp hcrit) (by simp), fun ho => by cases ho⟩
    | storeStop | stopSolver | notifyAll =>
      cases run
      have hnot : ¬ Critical ops := fun hcrit => absurd (hcases.mp hcrit) (by simp)
      refine ⟨fun hcrit => absurd hcrit hnot, fun ho => absurd (hc.mutex.mpr ho) ?_⟩
      simp [Critical]

/-- What a step leaves alone: the mutex in the hands of another thread, with `started` under it, and
flags that are set. -/
theorem Knows.frame {i : Option κ} {m m' : Mem κ} {t t' : Local} (h : Knows i m t)
    (hact : Act i m t m' t') :
    (∀ j, j ≠ i → (m.owner = some j ↔ m'.owner = some j)) ∧
      (∀ j, j ≠ i → m.owner = some j → m'.started = m.started) ∧
      (m.started = true → m'.started = true) ∧
      (m.stopRequested = true → m'.stopRequested = true) := by
  -- a thread that takes the mutex or gives it back is its owner on one side of the step
  have htake : m.owner = none → ∀ j, j ≠ i → (m.owner = some j ↔ some i = some j) := by
    intro hm j hne
    rw [hm, Option.some.injEq]
    exact iff_of_false (by simp) (Ne.symm hne)
  have hgive : m.owner = some i → ∀ j, j ≠ i → (m.owner = some j ↔ none = some j) := by
    intro hm j hne
    rw [hm, Option.some.injEq]
    exact iff_of_false (Ne.symm hne) (by simp)
  cases hact with
  | lock free => exact ⟨htake free, fun _ _ _ => rfl, id, id⟩
  | testStarted => exact ⟨fun _ _ => Iff.rfl, fun _ _ _ => rfl, id, id⟩
  | testStop => exact ⟨fun _ _ => Iff.rfl, fun _ _ _ => rfl, id, id⟩
  | sleep => exact ⟨hgive (h.2.mutex.mp trivial), fun _ _ _ => rfl, id, id⟩
  | spurious waits => exact ⟨fun _ _ => Iff.rfl, fun _ _ _ => rfl, id, id⟩
  | relock awake free => exact ⟨htake free, fun _ _ _ => rfl, id, id⟩
  | returnStarted => exact ⟨fun _ _ => Iff.rfl, fun _ _ _ => rfl, id, id⟩
  | returnStop => exact ⟨fun _ _ => Iff.rfl, fun _ _ _ => rfl, id, id⟩
  | unlock => exact ⟨hgive (h.2.mutex.mp trivial), fun _ _ _ => rfl, id, id⟩
  | call run =>
    rename_i k op ops
    obtain ⟨k', hk, hc⟩ := h
    cases hk
    cases op with
    | lock =>
      simp only [Op.run] at run
      split at run
      · rename_i hfree
        cases run
        exact ⟨htake (Option.isNone_iff_eq_none.mp hfree), fun _ _ _ => rfl, id, id⟩
      · cases run
    | setStarted =>
      have hm := hc.mutex.mp (.inl rfl)
      cases run
      refine ⟨fun _ _ => Iff.rfl, fun j hne hj => ?_, fun _ => rfl, id⟩
      rw [hm] at hj
      exact absurd (Option.some.inj hj).symm hne
    | unlock =>
      have hm := hc.mutex.mp (.inr rfl)
      cases run
      exact ⟨hgive hm, fun _ _ _ => rfl, id, id⟩
    | storeStop =>
      cases run
      exact ⟨fun _ _ => Iff.rfl, fun _ _ _ => rfl, id, fun _ => rfl⟩
    | stopSolver | notifyAll =>
      cases run
      exact ⟨fun _ _ => Iff.rfl, fun _ _ _ => rfl, id, id⟩

theorem Knows.other {i j : Option κ} {m m' : Mem κ} {t t' x : Local} (h : Knows i m t)
    (hj : Knows j m x) (hne : j ≠ i) (hact : Act i m t m' t') : Knows j m' x := by
  obtain ⟨howner, hunder, hstarted, hstop⟩ := h.frame hact
  cases x with
  | worker pc saw =>
    obtain ⟨rfl, hk⟩ := hj
    refine ⟨rfl, hk.mutex.trans (howner none hne), fun hpc => ?_,
      fun hpc => hstarted (hk.started hpc), fun hs => hstop (hk.sawStop hs), fun hr => ?_⟩
    · have hholds : pc.Holds := by
        obtain rfl | rfl := hpc <;> trivial
      rw [hunder none hne (hk.mutex.mp hholds)]
      exact hk.notStarted hpc
    · exact ⟨hstarted (hk.result hr).1, (hk.result hr).2⟩
  | caller ops =>
    obtain ⟨k, rfl, hk⟩ := hj
    exact ⟨k, rfl, hk.rest, hk.mutex.trans (howner _ hne)⟩

section Runs

variable [DecidableEq κ] {ok : Option κ → Config κ → Prop} {calls : κ → List Call} {c c' : Config κ}

/-- In every run every thread knows what it should. -/
theorem knows_of_run (h : (handshake κ).Run ok (fresh calls) c) (i : Option κ) :
    Knows i c.shared (c.own i) :=
  (h.thread_invariant (I := fun _ => True) (J := Knows) ⟨trivial, knows_fresh calls⟩
    (fun _ _ _ _ _ _ hj hact => ⟨trivial, hj.own hact⟩)
    (fun _ _ _ _ _ _ _ _ hi hj hne hact => hi.other hj hne hact)).2 i

/-- The worker is thread `none`, and the others are callers. -/
theorem exists_worker (h : (handshake κ).Run ok (fresh calls) c) :
    ∃ pc saw, c.own none = .worker pc saw ∧ WorkerKnows c.shared pc saw := by
  have hk := knows_of_run h none
  cases hw : c.own none with
  | worker pc saw =>
    rw [hw] at hk
    exact ⟨pc, saw, rfl, hk.2⟩
  | caller ops =>
    rw [hw] at hk
    obtain ⟨k, hk, -⟩ := hk
    cases hk

theorem exists_caller (h : (handshake κ).Run ok (fresh calls) c) (k : κ) :
    ∃ ops, c.own (some k) = .caller ops ∧ CallerKnows c.shared k ops := by
  have hk := knows_of_run h (some k)
  cases hw : c.own (some k) with
  | worker pc saw =>
    rw [hw] at hk
    cases hk.1
  | caller ops =>
    rw [hw] at hk
    obtain ⟨k', hk', hc⟩ := hk
    cases hk'
    exact ⟨ops, rfl, hc⟩

/-! ## Wakeups -/

/-- The worker may be about to sleep, or asleep, with `stop_requested` or `started` set only while a
notification is outstanding. -/
def WillWake (c : Config κ) : Prop :=
  ∀ saw, c.own none = .worker .sleep saw ∧ c.shared.stopRequested = true ∨
      c.own none = .worker .asleep saw ∧ c.shared.waiting = true ∧
        (c.shared.started = true ∨ c.shared.stopRequested = true) →
    ∃ k, Outstanding c k

/-- The steps of the worker. -/
theorem WillWake.worker {m' : Mem κ} {t' : Local} (h : WillWake c)
    (hk : Knows none c.shared (c.own none)) (hact : Act none c.shared (c.own none) m' t') :
    WillWake (c.set none m' t') := by
  intro saw hnew
  have hsame : ∀ k, (c.set none m' t').own (some k) = c.own (some k) := fun k =>
    Threads.Config.own_set_of_ne (by simp)
  simp only [Outstanding, hsame]
  rw [Threads.Config.own_set_self, Threads.Config.shared_set] at hnew
  generalize ht : c.own none = t at hk hact
  generalize hm : c.shared = m at hk hact
  cases hact with
  | lock free => simp at hnew
  | testStarted => split at hnew <;> simp at hnew
  | testStop =>
    -- it goes to sleep only if it has just found the flag clear
    split at hnew
    · simp at hnew
    · rename_i hstop
      simp only [Local.worker.injEq, reduceCtorEq, false_and, or_false] at hnew
      exact absurd hnew.2 hstop
  | sleep =>
    have hstarted := hk.2.notStarted (.inr rfl)
    refine h _ (.inl ⟨ht, ?_⟩)
    simp only [hstarted, Bool.false_eq_true, false_or] at hnew
    rw [hm]
    simpa using hnew.resolve_left (by simp) |>.2.2
  | spurious waits => simp at hnew
  | relock awake free => simp at hnew
  | returnStarted => split at hnew <;> simp at hnew
  | returnStop => simp at hnew
  | unlock => simp at hnew

/-- The steps of a caller. -/
theorem willWake_caller {k : κ} {m' : Mem κ} {t' : Local}
    (hk : Knows (some k) c.shared (c.own (some k))) (hmissed : ¬ Missed (some k) c)
    (hact : Act (some k) c.shared (c.own (some k)) m' t') :
    WillWake (c.set (some k) m' t') := by
  intro saw hnew
  have hworker : (c.set (some k) m' t').own none = c.own none :=
    Threads.Config.own_set_of_ne (by simp)
  have hother : ∀ j, j ≠ k → (c.set (some k) m' t').own (some j) = c.own (some j) := fun j hj =>
    Threads.Config.own_set_of_ne (by simpa using hj)
  rw [hworker, Threads.Config.shared_set] at hnew
  generalize ht : c.own (some k) = t at hk hact
  generalize hm : c.shared = m at hk hact
  cases hact with
  | call run =>
    rename_i op ops
    obtain ⟨k', hkk, hc⟩ := hk
    cases hkk
    obtain ⟨hrest, hnotify, -⟩ := hc.rest.next
    by_cases hop : op = .notifyAll
    · -- the worker is awake now, unless it was about to sleep
      subst hop
      cases run
      simp only [Bool.false_eq_true, false_and, and_false, or_false] at hnew
      by_contra hnone
      push Not at hnone
      refine hmissed ⟨⟨saw, hnew.1⟩, ?_, k, rfl, ?_, fun j hj ho => ?_⟩
      · rw [hm]
        exact hnew.2
      · have hnil : ops = [] := by
          by_contra hne
          exact hnone k ⟨ops, Threads.Config.own_set_self, hrest.notifyAll_mem hne⟩
        rw [ht, hnil]
      · obtain ⟨ops', ho, hmem⟩ := ho
        exact hnone j ⟨ops', (hother j hj).trans ho, hmem⟩
    · exact ⟨k, ops, Threads.Config.own_set_self, hnotify hop⟩

theorem willWake_of_run (hok : ∀ i c, ok i c → ¬ Missed i c)
    (h : (handshake κ).Run ok (fresh calls) c) : WillWake c := by
  induction h with
  | start =>
    intro saw hnew
    simp [fresh] at hnew
  | @step c c' i run met step ih =>
    obtain ⟨m', t', hact, rfl⟩ := step
    cases i with
    | none => exact ih.worker (knows_of_run run none) hact
    | some k => exact willWake_caller (knows_of_run run (some k)) (hok _ _ met) hact

/-- Without a missed notification no wakeup is lost. -/
theorem no_lostWakeup (hok : ∀ i c, ok i c → ¬ Missed i c)
    (h : (handshake κ).Run ok (fresh calls) c) : ¬ LostWakeup c := by
  rintro ⟨⟨saw, hw⟩, hwaiting, hflags, hnone⟩
  obtain ⟨k, hk⟩ := willWake_of_run hok h saw (.inr ⟨hw, hwaiting, hflags⟩)
  exact hnone k hk

/-- A worker that starts has been started, and has not seen a stop. -/
theorem started_of_done (h : (handshake κ).Run ok (fresh calls) c) {saw : Bool}
    (hdone : c.own none = .worker (.done true) saw) : c.shared.started = true ∧ saw = false := by
  have hk := knows_of_run h none
  rw [hdone] at hk
  exact hk.2.result (.inr rfl)

/-! ## With a call of `Start` -/

/-- A `Start` of thread `k` is still to set its flag, or has set it. -/
theorem started_or_pending {k : κ} (hstart : .start ∈ calls k)
    (h : (handshake κ).Run ok (fresh calls) c) :
    c.shared.started = true ∨ ∃ ops, c.own (some k) = .caller ops ∧ .setStarted ∈ ops := by
  induction h with
  | start =>
    refine .inr ⟨_, rfl, List.mem_flatMap.mpr ⟨_, hstart, ?_⟩⟩
    decide
  | @step c c' i run met step ih =>
    obtain ⟨m', t', hact, rfl⟩ := step
    obtain hstarted | ⟨ops, hops, hmem⟩ := ih
    · exact .inl (((knows_of_run run i).frame hact).2.2.1 hstarted)
    · by_cases hi : i = some k
      · subst hi
        generalize ht : c.own (some k) = t at hact
        generalize c.shared = m at hact
        cases hact with
        | call hrun =>
          rename_i op rest
          rw [ht] at hops
          cases hops
          obtain rfl | hmem := List.mem_cons.mp hmem
          · cases hrun
            exact .inl rfl
          · exact .inr ⟨rest, Threads.Config.own_set_self, hmem⟩
      · exact .inr ⟨ops, (Threads.Config.own_set_of_ne (Ne.symm hi)).trans hops, hmem⟩

/-- With a `Start` among the calls no notification is missed: until it has set its flag its own is
outstanding, and afterwards the worker does not go to sleep. -/
theorem not_missed_of_start {k : κ} (hstart : .start ∈ calls k)
    (h : (handshake κ).Run ok (fresh calls) c) (i : Option κ) : ¬ Missed i c := by
  rintro ⟨⟨saw, hw⟩, -, k', rfl, hlast, hothers⟩
  have hk := knows_of_run h none
  rw [hw] at hk
  have hstarted := hk.2.notStarted (.inr rfl)
  obtain hs | ⟨ops, hops, hmem⟩ := started_or_pending hstart h
  · rw [hstarted] at hs
    cases hs
  · by_cases hkk : k = k'
    · subst hkk
      rw [hlast] at hops
      cases hops
      simp at hmem
    · obtain ⟨ops', hops', hc⟩ := exists_caller h k
      rw [hops] at hops'
      cases hops'
      exact hothers k hkk ⟨ops, hops, hc.rest.notifyAll_mem (List.ne_nil_of_mem hmem)⟩

theorem run_of_start {k : κ} (hstart : .start ∈ calls k)
    (h : (handshake κ).Reach (fresh calls) c) :
    (handshake κ).Run (fun i c => ¬ Missed i c) (fresh calls) c := by
  induction h with
  | start => exact .start
  | step run _ step ih => exact ih.step (not_missed_of_start hstart run _) step

end Runs

/-! ## The join -/

/-- The steps that are left once `started` is set. -/
def WaitPc.rank : WaitPc → Nat
  | sleep => 7
  | asleep => 5
  | lock => 5
  | testStop => 5
  | testStarted => 4
  | returnStarted => 3
  | returnStop => 2
  | unlock _ => 1
  | done _ => 0

def Local.rank : Local → Nat
  | .worker pc _ => pc.rank
  | .caller ops => ops.length

/-- A bound on the steps that all threads still take. -/
def work [Fintype κ] (c : Config κ) : Nat :=
  ∑ i, (c.own i).rank + if c.shared.waiting then 1 else 0

/-- Once `started` is set every step brings its thread nearer to its end. -/
theorem rank_lt_of_act {i : Option κ} {m m' : Mem κ} {t t' : Local} (hk : Knows i m t)
    (hstarted : m.started = true) (hact : Act i m t m' t') :
    t'.rank + (if m'.waiting then 1 else 0) < t.rank + if m.waiting then 1 else 0 := by
  cases hact with
  | lock free => simp [Local.rank, WaitPc.rank]
  | testStarted => simp [Local.rank, WaitPc.rank, hstarted]
  | testStop =>
    have := hk.2.notStarted (.inl rfl)
    rw [hstarted] at this
    cases this
  | sleep =>
    have := hk.2.notStarted (.inr rfl)
    rw [hstarted] at this
    cases this
  | spurious waits => simp [waits]
  | relock awake free => simp [Local.rank, WaitPc.rank]
  | returnStarted => simp [Local.rank, WaitPc.rank, hstarted]
  | returnStop => simp [Local.rank, WaitPc.rank]
  | unlock => simp [Local.rank, WaitPc.rank]
  | call run =>
    rename_i k op ops
    have hwaiting : (if m'.waiting then 1 else 0) ≤ if m.waiting then 1 else 0 := by
      cases op with
      | lock =>
        simp only [Op.run] at run
        split at run
        · cases run
          exact le_rfl
        · cases run
      | notifyAll =>
        cases run
        simp
      | setStarted | unlock | storeStop | stopSolver =>
        cases run
        exact le_rfl
    rw [Local.rank, Local.rank, List.length_cons]
    omega

section Join

variable [DecidableEq κ] {calls : κ → List Call} {c c' : Config κ}

theorem work_lt_of_step [Fintype κ] {i : Option κ}
    (hk : ∀ i, Knows i c.shared (c.own i)) (hstarted : c.shared.started = true)
    (h : (handshake κ).Step i c c') : work c' < work c := by
  obtain ⟨m', t', hact, rfl⟩ := h
  have hlt := rank_lt_of_act (hk i) hstarted hact
  have hsum : ∑ j, ((c.set i m' t').own j).rank =
      t'.rank + ∑ j ∈ Finset.univ.erase i, (c.own j).rank := by
    rw [← Finset.add_sum_erase _ _ (Finset.mem_univ i), Threads.Config.own_set_self]
    congr 1
    refine Finset.sum_congr rfl fun j hj => ?_
    rw [Threads.Config.own_set_of_ne (Finset.ne_of_mem_erase hj)]
  have hold := Finset.add_sum_erase Finset.univ (fun j => (c.own j).rank) (Finset.mem_univ i)
  rw [work, work, hsum, ← hold, Threads.Config.shared_set]
  omega

/-- A caller inside the critical section can go on. -/
theorem exists_step_of_critical {k : κ} {ops : List Op} (hc : c.own (some k) = .caller ops)
    (hcrit : Critical ops) : ∃ c', (handshake κ).Step (some k) c c' := by
  cases ops with
  | nil => simp [Critical] at hcrit
  | cons op ops =>
    have hrun : ∃ m', op.run k c.shared = some m' := by
      obtain h | h := hcrit <;>
        · cases h
          exact ⟨_, rfl⟩
    obtain ⟨m', hm'⟩ := hrun
    exact ⟨c.set (some k) m' (.caller ops), m', .caller ops, hc ▸ .call hm', rfl⟩

/-- Someone can go on as long as the worker is not through, a wakeup without a notification apart. -/
theorem exists_step {k : κ} (hstart : .start ∈ calls k)
    (h : (handshake κ).Reach (fresh calls) c) (hstarted : c.shared.started = true)
    (hnot : ∀ r saw, c.own none ≠ .worker (.done r) saw) :
    ∃ i c', (handshake κ).Step i c c' ∧
      (i = none → ∀ saw, c.own none = .worker .asleep saw → c.shared.waiting = false) := by
  obtain ⟨pc, saw, hw, hk⟩ := exists_worker h
  -- a caller holds the mutex: it is in its critical section
  have hheld : ∀ j, c.shared.owner = some (some j) → ∃ i c', (handshake κ).Step i c c' ∧
      (i = none → ∀ saw, c.own none = .worker .asleep saw → c.shared.waiting = false) := by
    intro j hj
    obtain ⟨ops, hops, hc⟩ := exists_caller h j
    obtain ⟨c', hc'⟩ := exists_step_of_critical hops (hc.mutex.mpr hj)
    exact ⟨some j, c', hc', by simp⟩
  have hstep : ∀ {m' t'}, Act none c.shared (.worker pc saw) m' t' → pc ≠ .asleep →
      ∃ i c', (handshake κ).Step i c c' ∧
        (i = none → ∀ saw, c.own none = .worker .asleep saw → c.shared.waiting = false) := by
    intro m' t' hact hne
    refine ⟨none, c.set none m' t', ⟨m', t', hw ▸ hact, rfl⟩, fun _ x hx => ?_⟩
    rw [hw] at hx
    cases hx
    exact absurd rfl hne
  cases pc with
  | lock =>
    cases ho : c.shared.owner with
    | none => exact hstep (.lock ho) (by simp)
    | some i =>
      cases i with
      | none => exact (hk.mutex.mpr ho).elim
      | some j => exact hheld j ho
  | testStarted => exact hstep .testStarted (by simp)
  | testStop => exact hstep .testStop (by simp)
  | sleep => exact hstep .sleep (by simp)
  | returnStarted => exact hstep .returnStarted (by simp)
  | returnStop => exact hstep .returnStop (by simp)
  | unlock r => exact hstep .unlock (by simp)
  | done r => exact absurd hw (hnot r saw)
  | asleep =>
    cases hwaiting : c.shared.waiting with
    | false =>
      cases ho : c.shared.owner with
      | none =>
        have hact : Act none c.shared (c.own none) { c.shared with owner := some none }
            (.worker .testStarted saw) := hw ▸ Act.relock hwaiting ho
        exact ⟨none, _, ⟨_, _, hact, rfl⟩, fun _ _ _ => rfl⟩
      | some i =>
        cases i with
        | none => exact (hk.mutex.mpr ho).elim
        | some j =>
          obtain ⟨ops, hops, hc⟩ := exists_caller h j
          obtain ⟨c', hc'⟩ := exists_step_of_critical hops (hc.mutex.mpr ho)
          exact ⟨some j, c', hc', by simp⟩
    | true =>
      -- its wakeup is outstanding, and the caller who owes it can go on
      obtain ⟨j, ops, hops, hmem⟩ := willWake_of_run (fun _ _ hmet => hmet)
        (run_of_start hstart h) saw (.inr ⟨hw, hwaiting, .inl hstarted⟩)
      cases ops with
      | nil => cases hmem
      | cons op ops =>
        cases hrun : op.run j c.shared with
        | some m' => exact ⟨some j, _, ⟨m', .caller ops, hops ▸ .call hrun, rfl⟩, by simp⟩
        | none =>
          -- only the mutex can stop it, and the worker does not hold it
          have ho : c.shared.owner ≠ none := by
            intro ho
            cases op <;> simp [Op.run, ho] at hrun
          obtain ⟨i, ho⟩ := Option.ne_none_iff_exists'.mp ho
          cases i with
          | none => exact (hk.mutex.mpr ho).elim
          | some x =>
            obtain ⟨i, c', hc', hi⟩ := hheld x ho
            exact ⟨i, c', hc', fun h0 y hy => hwaiting ▸ hi h0 y hy⟩

/-- A thread that calls `Start` and then joins the worker. -/
def Joins (calls : κ → List Call) (k : κ) (c : Config κ) : Prop :=
  .start ∈ calls k ∧ c.own (some k) = .caller []

theorem started_of_joins {k : κ} (hjoin : Joins calls k c)
    (h : (handshake κ).Reach (fresh calls) c) : c.shared.started = true := by
  refine (started_or_pending hjoin.1 h).resolve_right ?_
  rintro ⟨ops, hops, hmem⟩
  rw [hjoin.2] at hops
  cases hops
  cases hmem

end Join

/-! ## The handshake -/

end Shogi.RootMate
