import Mathlib.Algebra.Order.Field.Rat
import Mathlib.Algebra.Order.Floor.Semiring
import Mathlib.Data.List.Induction
import Mathlib.Data.Rat.Floor

/-!
# The adaptive time controller

`AdaptiveTimeController`: when a search stops. The floating-point operations are parameters; what is
proved here holds whatever they return.

## Main definitions

- `TimeController.update`: one root snapshot
- `UpdateGuarantees`: what an update guarantees

## Main results

- `updates_guaranteed`: what every update of a search guarantees
-/

namespace Shogi.TimeControl

/-- The operations on `float` (`F`) and `double` (`D`) that the controller uses; `litF` and `litD`
are the values of literals. -/
structure FloatOps (F D : Type) where
  litF : ℚ → F
  addF : F → F → F
  subF : F → F → F
  ltF : F → F → Bool
  leF : F → F → Bool
  litD : ℚ → D
  ofInt : Int → D
  addD : D → D → D
  mulD : D → D → D
  divD : D → D → D
  maxD : D → D → D
  ltD : D → D → Bool
  leD : D → D → Bool
  ceilToInt : D → Int

/-- The time points of `TimeBudget` that the controller looks at. -/
structure TimeBudget where
  earliestStopMs : Int
  targetStopMs : Int
  latestSearchMs : Int
  allowEarlyStop : Bool
  allowExtension : Bool

def TimeBudget.hasAdaptiveDeadline (b : TimeBudget) : Bool :=
  0 < b.targetStopMs && 0 < b.latestSearchMs

/-- The time points are in order. -/
structure TimeBudget.Ordered (b : TimeBudget) : Prop where
  earliest_le : b.earliestStopMs ≤ b.targetStopMs
  target_le : b.targetStopMs ≤ b.latestSearchMs

structure RootSearchSnapshot (F : Type) where
  elapsedMs : Int
  newPlayouts : Int
  bestIndex : Int
  secondIndex : Int
  bestVisits : Int
  secondVisits : Int
  bestQ : F
  secondQ : F
  bestProven : Bool

inductive TimeStopReason
  | none
  | proven
  | earlyDominant
  | targetStable
  | extensionStable
  | latest
  | legacyLimit
  | nodeLimit
  | external
  | treeFull
  deriving DecidableEq, Repr

structure AdaptiveTimeDecision (F : Type) where
  shouldStop : Bool
  extensionActive : Bool
  reason : TimeStopReason
  effectiveDeadlineMs : Int
  bestChanges : Int
  stableMs : Int
  projectedRemaining : Int
  snapshot : Option (RootSearchSnapshot F)

/-- `AdaptiveTimeController`. -/
structure TimeController (F D : Type) where
  budget : TimeBudget
  inFlightPlayouts : Int
  lastBestIndex : Int
  lastBestChangeMs : Int
  lastSampleMs : Int
  lastSamplePlayouts : Int
  emaNps : D
  extensionDeadlineMs : Int
  decision : AdaptiveTimeDecision F

namespace TimeController

variable {F D : Type} (fp : FloatOps F D)

/-- `Reset`. -/
def reset (budget : TimeBudget) (inFlightPlayouts : Int) : TimeController F D where
  budget := budget
  inFlightPlayouts := max inFlightPlayouts 0
  lastBestIndex := -1
  lastBestChangeMs := 0
  lastSampleMs := 0
  lastSamplePlayouts := 0
  emaNps := fp.litD 0
  extensionDeadlineMs := 0
  decision := ⟨false, false, .none, budget.targetStopMs, 0, 0, 0, none⟩

/-- The speed since the last sample. -/
def recentNps (t : TimeController F D) (s : RootSearchSnapshot F) (wholeNps : D) : D :=
  if 0 < t.lastSampleMs ∧ t.lastSampleMs < s.elapsedMs ∧ t.lastSamplePlayouts ≤ s.newPlayouts then
    fp.divD (fp.mulD (fp.ofInt (s.newPlayouts - t.lastSamplePlayouts)) (fp.litD 1000))
      (fp.ofInt (s.elapsedMs - t.lastSampleMs))
  else wholeNps

/-- `ProjectRemaining`. -/
def projectRemaining (t : TimeController F D) (s : RootSearchSnapshot F) (deadlineMs : Int) :
    Int × TimeController F D :=
  let elapsedMs := max s.elapsedMs 1
  let wholeNps := fp.divD (fp.mulD (fp.ofInt s.newPlayouts) (fp.litD 1000)) (fp.ofInt elapsedMs)
  let recentNps := t.recentNps fp s wholeNps
  let emaNps :=
    if fp.leD t.emaNps (fp.litD 0) then recentNps
    else fp.addD (fp.mulD (fp.litD (3 / 4)) t.emaNps) (fp.mulD (fp.litD (1 / 4)) recentNps)
  let upperNps := fp.maxD (fp.maxD (fp.maxD wholeNps recentNps) emaNps) (fp.litD 0)
  let remainingMs := max (deadlineMs - s.elapsedMs) 0
  (fp.ceilToInt (fp.divD (fp.mulD (fp.mulD (fp.litD (6 / 5)) upperNps) (fp.ofInt remainingMs))
      (fp.litD 1000)) + t.inFlightPlayouts,
    { t with
      emaNps := emaNps
      lastSampleMs := s.elapsedMs
      lastSamplePlayouts := s.newPlayouts })

/-- `StableAndDominant`. -/
def stableAndDominant (t : TimeController F D) (s : RootSearchSnapshot F) (deadlineMs : Int)
    (requiredStableMs : Int) (qTolerance : F) : Bool × TimeController F D :=
  let projected := t.projectRemaining fp s deadlineMs
  let t := projected.2
  let stableMs := max (s.elapsedMs - t.lastBestChangeMs) 0
  let gap := s.bestVisits - s.secondVisits
  (0 ≤ s.bestIndex && requiredStableMs ≤ stableMs && projected.1 < gap &&
      fp.leF (fp.subF s.secondQ qTolerance) s.bestQ,
    { t with
      decision := { t.decision with projectedRemaining := projected.1, stableMs := stableMs } })

/-- A stop with its reason and its deadline. -/
def stop (t : TimeController F D) (reason : TimeStopReason) (deadlineMs : Int) :
    TimeController F D :=
  { t with
    decision := { t.decision with
      shouldStop := true
      reason := reason
      effectiveDeadlineMs := deadlineMs } }

/-- `stable_required`. -/
def stableRequired (t : TimeController F D) : Int := max 200 (t.budget.targetStopMs / 10)

/-- The best move and since when it is the best. -/
def noteBest (t : TimeController F D) (s : RootSearchSnapshot F) : TimeController F D :=
  let t :=
    if s.bestIndex ≠ t.lastBestIndex then
      { t with
        decision := { t.decision with
          bestChanges := t.decision.bestChanges + if 0 ≤ t.lastBestIndex then 1 else 0 }
        lastBestIndex := s.bestIndex
        lastBestChangeMs := s.elapsedMs }
    else t
  { t with decision := { t.decision with stableMs := max (s.elapsedMs - t.lastBestChangeMs) 0 } }

/-- The choice of an extension at the target; the flag says that there is none. -/
def chooseExtension (t : TimeController F D) (s : RootSearchSnapshot F) :
    Bool × TimeController F D :=
  let qInversion := fp.ltF (fp.addF s.bestQ (fp.litF (1 / 50))) s.secondQ
  let recentChange := t.decision.stableMs < t.stableRequired
  let ratio := fp.divD (fp.ofInt s.bestVisits) (fp.ofInt (max s.secondVisits 1))
  let projected := t.projectRemaining fp s t.budget.latestSearchMs
  let t := projected.2
  let catchable := s.bestVisits - s.secondVisits ≤ projected.1
  let visitPressure := fp.ltD ratio (fp.litD (3 / 2)) || catchable
  if !qInversion && !recentChange && !visitPressure then
    (true, t.stop .targetStable t.budget.targetStopMs)
  else
    let deadline :=
      if qInversion || recentChange then t.budget.latestSearchMs
      else t.budget.targetStopMs + (t.budget.latestSearchMs - t.budget.targetStopMs) / 2
    (false, { t with
      extensionDeadlineMs := deadline
      decision := { t.decision with extensionActive := true, effectiveDeadlineMs := deadline } })

/-- `Update` with the extension deadline chosen. -/
def duringExtension (t : TimeController F D) (s : RootSearchSnapshot F) : TimeController F D :=
  if t.extensionDeadlineMs ≤ s.elapsedMs then t.stop .latest t.decision.effectiveDeadlineMs
  else
    let stable := t.stableAndDominant fp s t.extensionDeadlineMs t.stableRequired (fp.litF (1 / 50))
    if stable.1 then stable.2.stop .extensionStable s.elapsedMs else stable.2

/-- `Update` from the target on. -/
def afterTarget (t : TimeController F D) (s : RootSearchSnapshot F) : TimeController F D :=
  if !t.budget.allowExtension || t.budget.latestSearchMs ≤ t.budget.targetStopMs then
    t.stop .targetStable t.budget.targetStopMs
  else if t.extensionDeadlineMs = 0 then
    let chosen := t.chooseExtension fp s
    if chosen.1 then chosen.2 else chosen.2.duringExtension fp s
  else t.duringExtension fp s

/-- `Update` after the early stop. -/
def afterEarly (t : TimeController F D) (s : RootSearchSnapshot F) : TimeController F D :=
  if s.elapsedMs < t.budget.targetStopMs then t else t.afterTarget fp s

/-- `Update` without a proven best move. -/
def unproven (t : TimeController F D) (s : RootSearchSnapshot F) : TimeController F D :=
  if t.budget.allowEarlyStop && t.budget.earliestStopMs ≤ s.elapsedMs &&
      s.elapsedMs < t.budget.targetStopMs then
    let stable :=
      t.stableAndDominant fp s t.budget.targetStopMs t.stableRequired (fp.litF (1 / 50))
    if stable.1 then stable.2.stop .earlyDominant s.elapsedMs else stable.2.afterEarly fp s
  else t.afterEarly fp s

/-- `Update`. The decision is that of the new state. -/
def update (t : TimeController F D) (s : RootSearchSnapshot F) : TimeController F D :=
  let t := { t with decision := { t.decision with snapshot := some s } }
  if !t.budget.hasAdaptiveDeadline || t.decision.shouldStop then t
  else
    let t := t.noteBest s
    if s.bestProven then t.stop .proven s.elapsedMs else t.unproven fp s

/-- The updates of a search. -/
def run (budget : TimeBudget) (inFlightPlayouts : Int) (l : List (RootSearchSnapshot F)) :
    TimeController F D :=
  l.foldl (update fp) (reset fp budget inFlightPlayouts)

/-! ## What an update leaves alone -/

section Frame

variable {fp} {t t' : TimeController F D} {s : RootSearchSnapshot F} {deadline required : Int}
  {tolerance : F} {reason : TimeStopReason}

/-- Budget, extension deadline and the stop are as they were. -/
structure SameStop (t t' : TimeController F D) : Prop where
  budget : t'.budget = t.budget
  extension : t'.extensionDeadlineMs = t.extensionDeadlineMs
  shouldStop : t'.decision.shouldStop = t.decision.shouldStop

theorem sameStop_noteBest : SameStop t (t.noteBest s) := by
  rw [noteBest]
  split
  · exact ⟨rfl, rfl, rfl⟩
  · exact ⟨rfl, rfl, rfl⟩

end Frame

/-! ## The extension -/

section Extension

variable (t : TimeController F D) (s : RootSearchSnapshot F)

/-- The extension deadline lies between the target and the latest time, once it is chosen. -/
def ExtensionWithin (t : TimeController F D) : Prop :=
  t.extensionDeadlineMs ≠ 0 → t.budget.targetStopMs ≤ t.extensionDeadlineMs ∧
    t.extensionDeadlineMs ≤ t.budget.latestSearchMs

theorem chooseExtension_spec (hle : t.budget.targetStopMs ≤ t.budget.latestSearchMs) :
    (t.chooseExtension fp s).2.budget = t.budget ∧
      ((t.chooseExtension fp s).1 = true → (t.chooseExtension fp s).2.decision.shouldStop = true ∧
        (t.chooseExtension fp s).2.extensionDeadlineMs = t.extensionDeadlineMs) ∧
      ((t.chooseExtension fp s).1 = false →
        t.budget.targetStopMs ≤ (t.chooseExtension fp s).2.extensionDeadlineMs ∧
        (t.chooseExtension fp s).2.extensionDeadlineMs ≤ t.budget.latestSearchMs) := by
  rw [chooseExtension]
  dsimp only
  split
  · exact ⟨rfl, fun _ => ⟨rfl, rfl⟩, fun h => by cases h⟩
  · refine ⟨rfl, fun h => (by cases h), fun _ => ?_⟩
    have hbudget : (t.projectRemaining fp s t.budget.latestSearchMs).2.budget = t.budget := rfl
    simp only [hbudget]
    split
    · exact ⟨hle, le_rfl⟩
    · omega

theorem duringExtension_spec :
    (t.duringExtension fp s).budget = t.budget ∧
      (t.duringExtension fp s).extensionDeadlineMs = t.extensionDeadlineMs ∧
      (t.extensionDeadlineMs ≤ s.elapsedMs →
        (t.duringExtension fp s).decision.shouldStop = true) := by
  rw [duringExtension]
  split
  · exact ⟨rfl, rfl, fun _ => rfl⟩
  · rename_i hlater
    dsimp only
    split
    · exact ⟨rfl, rfl, fun h => absurd h hlater⟩
    · exact ⟨rfl, rfl, fun h => absurd h hlater⟩

/-- What holds from the target on. -/
theorem afterTarget_spec (hle : t.budget.targetStopMs ≤ t.budget.latestSearchMs)
    (hwithin : t.ExtensionWithin) :
    (t.afterTarget fp s).budget = t.budget ∧ (t.afterTarget fp s).ExtensionWithin ∧
      (t.extensionDeadlineMs ≠ 0 →
        (t.afterTarget fp s).extensionDeadlineMs = t.extensionDeadlineMs) ∧
      (t.budget.latestSearchMs ≤ s.elapsedMs →
        (t.afterTarget fp s).decision.shouldStop = true) ∧
      (t.budget.allowExtension = false → (t.afterTarget fp s).decision.shouldStop = true) := by
  rw [afterTarget]
  split
  · exact ⟨rfl, hwithin, fun _ => rfl, fun _ => rfl, fun _ => rfl⟩
  rename_i hallowed
  simp only [Bool.or_eq_true, Bool.not_eq_true', decide_eq_true_eq, not_or, Bool.not_eq_false]
    at hallowed
  have hnot : t.budget.allowExtension ≠ false := by
    rw [hallowed.1]
    simp
  split
  · -- the extension is chosen now
    rename_i hzero
    obtain ⟨hbudget, hnone, hsome⟩ := chooseExtension_spec fp t s hle
    dsimp only
    cases hchosen : (t.chooseExtension fp s).1 with
    | true =>
      obtain ⟨hstop, hext⟩ := hnone hchosen
      refine ⟨hbudget, fun hne => ?_, fun hne => absurd hzero hne, fun _ => hstop, fun _ => hstop⟩
      rw [if_pos rfl, hext] at hne
      exact absurd hzero hne
    | false =>
      obtain ⟨h1, h2⟩ := hsome hchosen
      obtain ⟨hb, he, hs⟩ := duringExtension_spec fp (t.chooseExtension fp s).2 s
      rw [if_neg (by simp)]
      refine ⟨hb.trans hbudget, fun _ => ?_, fun hne => absurd hzero hne, fun hlate => hs (h2.trans hlate),
        fun h => absurd h hnot⟩
      rw [hb, he, hbudget]
      exact ⟨h1, h2⟩
  · -- the extension has been chosen before
    rename_i hne
    obtain ⟨hb, he, hs⟩ := duringExtension_spec fp t s
    refine ⟨hb, fun hne' => ?_, fun _ => he, fun hlate => hs ((hwithin hne).2.trans hlate),
      fun h => absurd h hnot⟩
    rw [hb, he]
    exact hwithin hne

end Extension

/-! ## Updates -/

/-- What the update from `t` to `t'` by the snapshot `s` guarantees under the budget `b`. -/
structure UpdateGuarantees (b : TimeBudget) (t : TimeController F D) (s : RootSearchSnapshot F)
    (t' : TimeController F D) : Prop where
  sticky : t.decision.shouldStop = true → t'.decision.shouldStop = true ∧
    t'.decision.reason = t.decision.reason ∧
    t'.decision.effectiveDeadlineMs = t.decision.effectiveDeadlineMs
  early : t.decision.shouldStop = false → t'.decision.shouldStop = true →
    s.elapsedMs < b.earliestStopMs → s.bestProven = true ∧ t'.decision.reason = .proven
  latest : b.latestSearchMs ≤ s.elapsedMs → t'.decision.shouldStop = true
  noEarlyStop : b.allowEarlyStop = false → t.decision.shouldStop = false →
    t'.decision.shouldStop = true → t'.decision.reason ≠ .proven → b.targetStopMs ≤ s.elapsedMs
  noExtension : b.allowExtension = false → b.targetStopMs ≤ s.elapsedMs →
    t'.decision.shouldStop = true
  extensionKept : t.extensionDeadlineMs ≠ 0 → t'.extensionDeadlineMs = t.extensionDeadlineMs
  extensionWithin : t'.extensionDeadlineMs ≠ 0 → b.targetStopMs ≤ t'.extensionDeadlineMs ∧
    t'.extensionDeadlineMs ≤ b.latestSearchMs

section Update

variable (t : TimeController F D) (s : RootSearchSnapshot F)

/-- What holds for a running search without a proven best move. -/
theorem unproven_spec (hle : t.budget.targetStopMs ≤ t.budget.latestSearchMs)
    (hwithin : t.ExtensionWithin) (hrunning : t.decision.shouldStop = false) :
    (t.unproven fp s).budget = t.budget ∧ (t.unproven fp s).ExtensionWithin ∧
      (t.extensionDeadlineMs ≠ 0 → (t.unproven fp s).extensionDeadlineMs = t.extensionDeadlineMs) ∧
      (t.budget.latestSearchMs ≤ s.elapsedMs → (t.unproven fp s).decision.shouldStop = true) ∧
      (t.budget.allowExtension = false → t.budget.targetStopMs ≤ s.elapsedMs →
        (t.unproven fp s).decision.shouldStop = true) ∧
      ((t.unproven fp s).decision.shouldStop = true → t.budget.targetStopMs ≤ s.elapsedMs ∨
        t.budget.allowEarlyStop = true ∧ t.budget.earliestStopMs ≤ s.elapsedMs) := by
  rw [unproven]
  split
  · rename_i hearly
    simp only [Bool.and_eq_true, decide_eq_true_eq] at hearly
    obtain ⟨⟨hallow, hearliest⟩, hbefore⟩ := hearly
    have hlate : ¬ t.budget.latestSearchMs ≤ s.elapsedMs := by omega
    have htarget : ¬ t.budget.targetStopMs ≤ s.elapsedMs := by omega
    dsimp only
    split
    · exact ⟨rfl, hwithin, fun _ => rfl, fun h => absurd h hlate, fun _ h => absurd h htarget,
        fun _ => .inr ⟨hallow, hearliest⟩⟩
    · rw [afterEarly, if_pos (by exact hbefore)]
      refine ⟨rfl, hwithin, fun _ => rfl, fun h => absurd h hlate, fun _ h => absurd h htarget,
        fun h => ?_⟩
      exact .inr ⟨hallow, hearliest⟩
  · rw [afterEarly]
    split
    · rename_i hbefore
      refine ⟨rfl, hwithin, fun _ => rfl, fun h => absurd h (by omega), fun _ h => absurd h (by omega),
        fun h => ?_⟩
      rw [hrunning] at h
      cases h
    · rename_i hafter
      obtain ⟨h1, h2, h3, h4, h5⟩ := afterTarget_spec fp t s hle hwithin
      exact ⟨h1, h2, h3, h4, fun h _ => h5 h, fun _ => .inl (by omega)⟩

/-- An update of a search that has stopped. -/
theorem update_of_stopped (hstop : t.decision.shouldStop = true) :
    t.update fp s = { t with decision := { t.decision with snapshot := some s } } := by
  rw [update]
  simp only [hstop, Bool.or_true, if_true]

/-- An update of a running search. -/
theorem update_of_running (hdeadline : t.budget.hasAdaptiveDeadline = true)
    (hrunning : t.decision.shouldStop = false) :
    ∃ u : TimeController F D, SameStop t u ∧ t.update fp s =
      if s.bestProven then u.stop .proven s.elapsedMs else u.unproven fp s := by
  refine ⟨noteBest { t with decision := { t.decision with snapshot := some s } } s, ?_, ?_⟩
  · have h := @sameStop_noteBest F D { t with decision := { t.decision with snapshot := some s } } s
    exact ⟨h.budget, h.extension, h.shouldStop⟩
  · rw [update]
    simp only [hdeadline, hrunning, Bool.not_true, Bool.or_false, Bool.false_eq_true, if_false]

/-- The step lemma: an update keeps the budget and guarantees what it should. -/
theorem update_spec {b : TimeBudget} (hb : t.budget = b) (ho : b.Ordered)
    (hdeadline : b.hasAdaptiveDeadline = true) (hwithin : t.ExtensionWithin) :
    (t.update fp s).budget = b ∧ (t.update fp s).ExtensionWithin ∧
      UpdateGuarantees b t s (t.update fp s) := by
  subst hb
  obtain ⟨hearliest, hle⟩ := ho
  cases hstopped : t.decision.shouldStop with
  | true =>
    rw [update_of_stopped fp t s hstopped]
    refine ⟨rfl, hwithin, fun _ => ⟨hstopped, rfl, rfl⟩, fun h => ?_, fun _ => hstopped,
      fun _ h => ?_, fun _ _ => hstopped, fun _ => rfl, hwithin⟩
    · rw [hstopped] at h
      cases h
    · rw [hstopped] at h
      cases h
  | false =>
    obtain ⟨u, ⟨hbudget, hext, hstop⟩, hupdate⟩ := update_of_running fp t s hdeadline hstopped
    rw [hupdate]
    split
    · rename_i hproven
      have hwithin' : u.ExtensionWithin := by
        rw [ExtensionWithin, hbudget, hext]
        exact hwithin
      refine ⟨hbudget, hwithin', fun h => ?_, fun _ _ _ => ⟨hproven, rfl⟩, fun _ => rfl,
        fun _ _ _ h => absurd rfl h, fun _ _ => rfl, fun _ => hext, fun hne => ?_⟩
      · rw [hstopped] at h
        cases h
      · have := hwithin' hne
        rwa [hbudget] at this
    · have hwithin' : u.ExtensionWithin := by
        rw [ExtensionWithin, hbudget, hext]
        exact hwithin
      obtain ⟨h1, h2, h3, h4, h5, h6⟩ := unproven_spec fp u s (by rw [hbudget]; exact hle) hwithin'
        (hstop.trans hstopped)
      rw [hext] at h3
      rw [hbudget] at h1 h4 h5 h6
      refine ⟨h1, h2, fun h => ?_, fun _ h hearly => ?_, h4, fun hno _ h _ => ?_, h5, h3,
        fun hne => ?_⟩
      · rw [hstopped] at h
        cases h
      · have := h6 h
        omega
      · refine (h6 h).resolve_right fun hallow => ?_
        rw [hno] at hallow
        cases hallow.1
      · have := h2 hne
        rwa [h1] at this

end Update

section Run

variable {b : TimeBudget} {n : Int}

theorem run_append_singleton (l : List (RootSearchSnapshot F)) (s : RootSearchSnapshot F) :
    run fp b n (l ++ [s]) = (run fp b n l).update fp s := by
  rw [run, List.foldl_append]
  rfl

/-- The run lemma: the budget stays, and the extension deadline within its bounds. -/
theorem run_invariant (ho : b.Ordered) (hdeadline : b.hasAdaptiveDeadline = true)
    (l : List (RootSearchSnapshot F)) :
    (run fp b n l).budget = b ∧ (run fp b n l).ExtensionWithin := by
  induction l using List.reverseRecOn with
  | nil => exact ⟨rfl, fun h => absurd rfl h⟩
  | append_singleton l s ih =>
    obtain ⟨hbudget, hwithin⟩ := ih
    rw [run_append_singleton]
    obtain ⟨h1, h2, -⟩ := update_spec fp _ s hbudget ho hdeadline hwithin
    exact ⟨h1, h2⟩

end Run

end TimeController

/-- In every sequence of updates under a budget with ordered time points and an adaptive deadline,
whatever the floating-point operations return, every update gives its guarantees. -/
theorem updates_guaranteed {F D : Type} (fp : FloatOps F D) {b : TimeBudget} (ho : b.Ordered)
    (hdeadline : b.hasAdaptiveDeadline = true) (n : Int) (l : List (RootSearchSnapshot F))
    (s : RootSearchSnapshot F) :
    TimeController.UpdateGuarantees b (.run fp b n l) s (.run fp b n (l ++ [s])) := by
  obtain ⟨hbudget, hwithin⟩ := TimeController.run_invariant fp ho hdeadline l
  rw [TimeController.run_append_singleton]
  exact (TimeController.update_spec fp _ s hbudget ho hdeadline hwithin).2.2

/-! ## Exact arithmetic -/

/-- Rational numbers in place of both types. -/
def exactOps : FloatOps ℚ ℚ where
  litF x := x
  addF := (· + ·)
  subF := (· - ·)
  ltF x y := x < y
  leF x y := x ≤ y
  litD x := x
  ofInt n := n
  addD := (· + ·)
  mulD := (· * ·)
  divD := (· / ·)
  maxD := max
  ltD x y := x < y
  leD x y := x ≤ y
  ceilToInt x := ⌈x⌉

/-- A budget with room for an extension. -/
def roomyBudget : TimeBudget := ⟨100, 1000, 1500, true, true⟩

/-- The best move is twice as popular as the next. -/
def steady (elapsedMs : Int) : RootSearchSnapshot ℚ where
  elapsedMs := elapsedMs
  newPlayouts := 3 * elapsedMs
  bestIndex := 0
  secondIndex := 1
  bestVisits := 2 * elapsedMs
  secondVisits := elapsedMs
  bestQ := 1 / 2
  secondQ := 1 / 2
  bestProven := false

theorem updates_guaranteed_steady :
    TimeController.UpdateGuarantees roomyBudget (.run exactOps roomyBudget 4 [steady 500])
      (steady 1000) (.run exactOps roomyBudget 4 ([steady 500] ++ [steady 1000])) :=
  updates_guaranteed exactOps ⟨by decide, by decide⟩ rfl 4 [steady 500] (steady 1000)

/-- Without an adaptive deadline no update stops the search. -/
theorem not_updates_guaranteed_zero : ¬ ∀ (b : TimeBudget) (n : Int)
    (l : List (RootSearchSnapshot ℚ)) (s : RootSearchSnapshot ℚ), b.Ordered →
      TimeController.UpdateGuarantees b (.run exactOps b n l) s
        (.run exactOps b n (l ++ [s])) := by
  intro hall
  have h := hall ⟨0, 0, 0, false, false⟩ 1 [] (steady 0) ⟨le_rfl, le_rfl⟩
  have hstop := h.latest le_rfl
  cases hstop

end Shogi.TimeControl
