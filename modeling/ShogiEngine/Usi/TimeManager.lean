import ShogiEngine.Library.Binary32
import ShogiEngine.Usi.TimeController

/-!
# The time manager

`TimeManager::Compute` of `usi/time_manager.cc`: the time points of a search from the clocks and the
options. An `int` that overflows is undefined, and then there is no budget.

## Main definitions

- `compute`: the source's function
- `responseMs`, `targetMs`, `latestMs`: its parts

## Main results

- `compute_isSome`: clocks whose sum fits overflow nowhere
- `compute_ordered`: the time points are in order and keep to the clocks
-/

namespace Shogi.TimeManager

open Binary32

/-! ## The source's functions -/

/-- `TimeManagementMode`. -/
inductive TimeManagementMode
  | off
  | shadow
  | on
  deriving DecidableEq, Repr

/-- `TimeControl`. -/
structure Control where
  mainTimeMs : Int
  incrementMs : Int
  byoyomiMs : Int
  moveTimeMs : Int
  gamePly : Int
  hasMainTime : Bool
  hasExplicitNodes : Bool
  infinite : Bool
  ponder : Bool
  deriving DecidableEq, Repr

/-- `TimeOptions`. -/
structure TimeOptions where
  maxMoveTimeMs : Int
  maxMoveTime1mMs : Int
  moveOverheadMs : Int
  maxExtensionPercent : Int
  mode : TimeManagementMode

/-- `TimeBudget`. -/
structure Budget extends TimeControl.TimeBudget where
  mode : TimeManagementMode
  mctsTimeSeconds : ℚ
  activeMoveCapMs : Int
  hardDeadlineMs : Int
  rootGuardDeadlineMs : Int
  responseDeadlineMs : Int

/-- The result of `int` arithmetic, `none` where it overflows. -/
def toInt (x : Int) : Option Int := if -2 ^ 31 ≤ x ∧ x < 2 ^ 31 then some x else none

/-- The conversion of a wider integer to `int`. -/
def narrow (x : Int) : Int := Int.bmod x (2 ^ 32)

/-- The conversion of a number to `int`, `none` where it is out of range. -/
def truncToInt (x : ℚ) : Option Int := toInt (if 0 ≤ x then ⌊x⌋ else ⌈x⌉)

/-- `std::lround`: halves are rounded away from zero. -/
def lround (x : ℚ) : Int := if 0 ≤ x then ⌊x + 1 / 2⌋ else -⌊-x + 1 / 2⌋

/-- `std::clamp`. -/
def clamp {α : Type} [LT α] [DecidableLT α] (v lo hi : α) : α :=
  if v < lo then lo else if hi < v then hi else v

/-- `ActiveMoveCap`. -/
def activeMoveCap (c : Control) (o : TimeOptions) : Int :=
  if 0 < o.maxMoveTime1mMs ∧ 0 < c.mainTimeMs ∧ c.mainTimeMs < 60000 then o.maxMoveTime1mMs
  else o.maxMoveTimeMs

/-- The duration before the cap in `ComputeLegacy`. -/
def legacySeconds (c : Control) (o : TimeOptions) : Option ℚ :=
  if 0 < c.moveTimeMs then
    (toInt (c.moveTimeMs - o.moveOverheadMs)).map fun ms => f32 (f32 (max ms 1 : Int) / 1000)
  else if 0 < c.byoyomiMs then some (f32 (f32 (f32 c.byoyomiMs / 1000) * f32 (9 / 10)))
  else if c.hasMainTime then
    some (max (f32 (f32 (f32 (f32 c.mainTimeMs * f32 (1 / 20)) + f32 (f32 c.incrementMs * f32 (4 / 5))) /
      1000)) (f32 (1 / 10)))
  else some 0

/-- The duration after the cap. -/
def cappedSeconds (c : Control) (cap : Int) (seconds : ℚ) : ℚ :=
  if 0 < c.moveTimeMs then seconds
  else if 0 < cap then
    let capSeconds := max (f32 (f32 (f32 cap / 1000) - f32 (1 / 2))) (f32 (1 / 2))
    if seconds ≤ 0 ∨ capSeconds < seconds then capSeconds else seconds
  else seconds

/-- The watchdog deadline in `ComputeLegacy`. -/
def legacyDeadline (c : Control) (cap : Int) (seconds : ℚ) : Option Int :=
  if 0 < c.moveTimeMs then some c.moveTimeMs
  else if 0 < cap then some cap
  else if 0 < seconds then (truncToInt (f32 (seconds * 1000))).bind fun ms => toInt (ms + 2000)
  else some 0

/-- `ComputeLegacy`. -/
def computeLegacy (c : Control) (o : TimeOptions) : Option Budget :=
  (legacySeconds c o).bind fun seconds =>
    let cap := activeMoveCap c o
    let seconds := cappedSeconds c cap seconds
    (legacyDeadline c cap seconds).map fun deadline =>
      { earliestStopMs := 0
        targetStopMs := 0
        latestSearchMs := 0
        allowEarlyStop := false
        allowExtension := false
        mode := .off
        mctsTimeSeconds := seconds
        activeMoveCapMs := cap
        hardDeadlineMs := deadline
        rootGuardDeadlineMs := 0
        responseDeadlineMs := 0 }

/-- `PhaseDivisor`. -/
def phaseDivisor (gamePly : Int) : ℚ :=
  let opening := clamp (f64 (f64 (40 - (max gamePly 0 : Int)) / 40)) 0 1
  f64 (14 + f64 (26 * opening))

/-- `overhead_ms`. -/
def overheadMs (o : TimeOptions) : Int := clamp o.moveOverheadMs 0 5000

/-- `pure_byoyomi`. -/
def pureByoyomi (c : Control) : Bool := 0 < c.byoyomiMs && !c.hasMainTime && c.incrementMs ≤ 0

/-- `response_ms` before the cap. -/
def uncappedResponseMs (c : Control) (o : TimeOptions) : Option Int :=
  if 0 < c.moveTimeMs then (toInt (c.moveTimeMs - overheadMs o)).map fun ms => max ms 1
  else if 0 < c.mainTimeMs ∨ 0 < c.byoyomiMs then
    (toInt (c.mainTimeMs + c.byoyomiMs)).bind fun ms => (toInt (ms - overheadMs o)).map fun ms => max ms 1
  else if c.hasMainTime then some 1
  else some 0

/-- `response_ms`. -/
def responseMs (c : Control) (o : TimeOptions) : Option Int :=
  (uncappedResponseMs c o).bind fun ms =>
    if 0 < activeMoveCap c o then
      (toInt (activeMoveCap c o - overheadMs o)).map fun cap =>
        if 0 < ms then min ms (max cap 1) else max cap 1
    else some ms

/-- `cap_only`. -/
def capOnly (c : Control) (o : TimeOptions) : Bool :=
  0 < activeMoveCap c o && c.moveTimeMs ≤ 0 && !c.hasMainTime && c.mainTimeMs ≤ 0 && c.byoyomiMs ≤ 0

/-- `byoyomi_floor`. -/
def byoyomiFloor (c : Control) (o : TimeOptions) : Option Int :=
  (toInt (c.byoyomiMs - overheadMs o)).map fun ms => max ms 0

/-- `main_budget`. -/
def mainBudget (c : Control) : ℚ :=
  f64 (f64 (c.mainTimeMs / phaseDivisor c.gamePly) + f64 (f64 (4 / 5) * c.incrementMs))

/-- `target_ms`. -/
def targetMs (c : Control) (o : TimeOptions) (response floor : Int) : Int :=
  if 0 < c.moveTimeMs then response
  else if pureByoyomi c || capOnly c o then response
  else min (max (narrow (lround (max (mainBudget c) floor))) 100) response

/-- The first `allow_extension`. -/
def mayExtend (c : Control) : Bool :=
  c.moveTimeMs ≤ 0 && !pureByoyomi c && c.hasMainTime && 10000 ≤ c.mainTimeMs && !c.hasExplicitNodes

/-- `extension_percent`. -/
def extensionPercent (c : Control) (o : TimeOptions) : Int :=
  let percent := clamp o.maxExtensionPercent 100 300
  let percent := if c.mainTimeMs < 60000 then min percent 125 else percent
  if mayExtend c then percent else 100

/-- `latest_ms`. -/
def latestMs (c : Control) (o : TimeOptions) (target response : Int) : Int :=
  clamp (narrow ((target * extensionPercent c o).tdiv 100)) target response

/-- What `Compute` sets behind the response deadline. -/
def withDeadlines (b : Budget) (c : Control) (o : TimeOptions) (response floor : Int) : Budget :=
  let target := targetMs c o response floor
  let earliest := min (max (max 100 (target.tdiv 10)) floor) target
  let latest := latestMs c o target response
  { b with
    earliestStopMs := if pureByoyomi c then target else earliest
    targetStopMs := target
    latestSearchMs := latest
    responseDeadlineMs := response
    rootGuardDeadlineMs := response
    allowEarlyStop := !pureByoyomi c && !capOnly c o && c.moveTimeMs ≤ 0 && 0 < c.mainTimeMs &&
      !c.hasExplicitNodes
    allowExtension := mayExtend c && target < latest
    mctsTimeSeconds := if o.mode = .on then f32 (f32 latest / 1000) else b.mctsTimeSeconds
    hardDeadlineMs := if o.mode = .on then response else b.hardDeadlineMs }

/-- `TimeManager::Compute`. -/
def compute (c : Control) (o : TimeOptions) : Option Budget :=
  (computeLegacy c o).bind fun legacy =>
    let b := { legacy with mode := o.mode }
    if c.infinite then some { b with mctsTimeSeconds := 0, hardDeadlineMs := 0 }
    else if o.mode = .off ∨ c.ponder = true then some b
    else
      (responseMs c o).bind fun response =>
        if response ≤ 0 then some b
        else (byoyomiFloor c o).map fun floor => withDeadlines b c o response floor

/-! ## The order of the time points -/

/-- What holds of the time points once they are set. -/
structure InOrder (c : Control) (o : TimeOptions) (b : Budget) : Prop where
  earliest_pos : 1 ≤ b.earliestStopMs
  earliest_le : b.earliestStopMs ≤ b.targetStopMs
  target_le : b.targetStopMs ≤ b.latestSearchMs
  latest_le : b.latestSearchMs ≤ b.responseDeadlineMs
  guard : b.responseDeadlineMs = b.rootGuardDeadlineMs
  moveTime : 0 < c.moveTimeMs → b.responseDeadlineMs ≤ max (c.moveTimeMs - overheadMs o) 1
  clock : c.moveTimeMs ≤ 0 → 0 < c.mainTimeMs ∨ 0 < c.byoyomiMs ∨ c.hasMainTime = true →
    b.responseDeadlineMs ≤ max (c.mainTimeMs + c.byoyomiMs - overheadMs o) 1
  cap : 0 < activeMoveCap c o → b.responseDeadlineMs ≤ max (activeMoveCap c o - overheadMs o) 1
  latest_eq : b.allowExtension = false → b.latestSearchMs = b.targetStopMs
  on : o.mode = .on → b.mctsTimeSeconds = f32 (f32 b.latestSearchMs / 1000) ∧
    b.hardDeadlineMs = b.responseDeadlineMs

section Order

variable {c : Control} {o : TimeOptions} {b : Budget} {x y response floor target : Int}

theorem toInt_eq_some : toInt x = some y ↔ (-2 ^ 31 ≤ x ∧ x < 2 ^ 31) ∧ x = y := by
  rw [toInt]
  split
  next h => rw [Option.some_inj, and_iff_right h]
  next h => exact iff_of_false (Option.some_ne_none y).symm fun hx => h hx.1

theorem le_clamp {v lo hi : Int} (h : lo ≤ hi) : lo ≤ clamp v lo hi := by
  rw [clamp]
  split_ifs <;> omega

theorem clamp_le {v lo hi : Int} (h : lo ≤ hi) : clamp v lo hi ≤ hi := by
  rw [clamp]
  split_ifs <;> omega

theorem overheadMs_nonneg : 0 ≤ overheadMs o := le_clamp (by decide)

/-- The bounds of the response deadline before the cap. -/
theorem uncappedResponseMs_spec (h : uncappedResponseMs c o = some response) :
    (0 < c.moveTimeMs → response = max (c.moveTimeMs - overheadMs o) 1) ∧
      (c.moveTimeMs ≤ 0 → 0 < c.mainTimeMs ∨ 0 < c.byoyomiMs ∨ c.hasMainTime = true →
        1 ≤ response ∧ response ≤ max (c.mainTimeMs + c.byoyomiMs - overheadMs o) 1) := by
  rw [uncappedResponseMs] at h
  split at h
  next hmove =>
    obtain ⟨ms, hms, rfl⟩ := Option.map_eq_some_iff.mp h
    obtain ⟨-, rfl⟩ := toInt_eq_some.mp hms
    exact ⟨fun _ => rfl, fun hno => absurd hmove (by omega)⟩
  next hmove =>
    refine ⟨fun hyes => absurd hyes hmove, fun _ hclock => ?_⟩
    split at h
    next =>
      obtain ⟨sum, hsum, h⟩ := Option.bind_eq_some_iff.mp h
      obtain ⟨ms, hms, rfl⟩ := Option.map_eq_some_iff.mp h
      obtain ⟨-, rfl⟩ := toInt_eq_some.mp hsum
      obtain ⟨-, rfl⟩ := toInt_eq_some.mp hms
      exact ⟨le_max_right _ _, le_rfl⟩
    next hnone =>
      split at h
      next =>
        cases h
        exact ⟨le_rfl, le_max_right _ _⟩
      next hmain =>
        rcases hclock with hmain' | hbyoyomi | hhas
        · exact absurd (Or.inl hmain') hnone
        · exact absurd (Or.inr hbyoyomi) hnone
        · exact absurd hhas hmain

/-- The bounds of the response deadline. -/
theorem responseMs_spec (h : responseMs c o = some response) :
    (0 < c.moveTimeMs → response ≤ max (c.moveTimeMs - overheadMs o) 1) ∧
      (c.moveTimeMs ≤ 0 → 0 < c.mainTimeMs ∨ 0 < c.byoyomiMs ∨ c.hasMainTime = true →
        response ≤ max (c.mainTimeMs + c.byoyomiMs - overheadMs o) 1) ∧
      (0 < activeMoveCap c o → response ≤ max (activeMoveCap c o - overheadMs o) 1) := by
  obtain ⟨ms, hms, h⟩ := Option.bind_eq_some_iff.mp h
  obtain ⟨hmove, hclock⟩ := uncappedResponseMs_spec hms
  split at h
  next hcap =>
    obtain ⟨cap, hfits, rfl⟩ := Option.map_eq_some_iff.mp h
    obtain ⟨-, rfl⟩ := toInt_eq_some.mp hfits
    refine ⟨fun hyes => ?_, fun hno hgiven => ?_, fun _ => ?_⟩
    · have hms := hmove hyes
      rw [if_pos (by omega), ← hms]
      exact min_le_left _ _
    · obtain ⟨hpos, hle⟩ := hclock hno hgiven
      rw [if_pos (by omega)]
      exact (min_le_left _ _).trans hle
    · split
      · exact min_le_right _ _
      · exact le_rfl
  next hcap =>
    cases h
    exact ⟨fun hyes => (hmove hyes).le, fun hno hgiven => (hclock hno hgiven).2,
      fun hyes => absurd hyes hcap⟩

/-- The target is at least one millisecond, and no later than the response deadline. -/
theorem targetMs_spec (c : Control) (o : TimeOptions) (floor : Int) (h : 1 ≤ response) :
    1 ≤ targetMs c o response floor ∧ targetMs c o response floor ≤ response := by
  rw [targetMs]
  split_ifs
  · exact ⟨h, le_rfl⟩
  · exact ⟨h, le_rfl⟩
  · exact ⟨le_min ((by decide : (1 : Int) ≤ 100).trans (le_max_right _ _)) h, min_le_right _ _⟩

/-- Without an extension the latest time is the target. -/
theorem latestMs_eq (hno : mayExtend c = false) (htarget : 1 ≤ target) (hle : target ≤ response)
    (hfits : response < 2 ^ 31) : latestMs c o target response = target := by
  have hpercent : extensionPercent c o = 100 := by
    rw [extensionPercent, hno]
    rfl
  have hdiv : (target * 100).tdiv 100 = target := Int.mul_tdiv_cancel target (by decide)
  have hnarrow : narrow target = target := by
    rw [narrow, Int.bmod_eq_of_le (by omega) (by omega)]
  rw [latestMs, hpercent, hdiv, hnarrow, clamp]
  split_ifs <;> omega

theorem withDeadlines_inOrder (hresponse : responseMs c o = some response) (hpos : 1 ≤ response)
    (hfits : response < 2 ^ 31) : InOrder c o (withDeadlines b c o response floor) := by
  obtain ⟨hmove, hclock, hcap⟩ := responseMs_spec hresponse
  obtain ⟨htarget, hle⟩ := targetMs_spec c o floor hpos
  have hmin : 1 ≤ min (max (max 100 ((targetMs c o response floor).tdiv 10)) floor)
      (targetMs c o response floor) := by
    refine le_min ?_ htarget
    exact ((by decide : (1 : Int) ≤ 100).trans (le_max_left _ _)).trans (le_max_left _ _)
  refine ⟨?_, ?_, le_clamp hle, clamp_le hle, rfl, hmove, hclock, hcap, fun hno => ?_, fun hon => ?_⟩
  · show 1 ≤ if pureByoyomi c then _ else _
    split
    · exact htarget
    · exact hmin
  · show (if pureByoyomi c then _ else _) ≤ targetMs c o response floor
    split
    · exact le_rfl
    · exact min_le_right _ _
  · have hno : (mayExtend c && decide (targetMs c o response floor <
        latestMs c o (targetMs c o response floor) response)) = false := hno
    rw [Bool.and_eq_false_iff, decide_eq_false_iff_not, not_lt] at hno
    rcases hno with hno | hno
    · exact latestMs_eq hno htarget hle hfits
    · exact le_antisymm hno (le_clamp hle)
  · exact ⟨if_pos hon, if_pos hon⟩

/-- The response deadline is an `int`. -/
theorem responseMs_lt (h : responseMs c o = some response) : response < 2 ^ 31 := by
  have hone : (1 : Int) < 2 ^ 31 := by decide
  have huncapped : ∀ ms, uncappedResponseMs c o = some ms → ms < 2 ^ 31 := by
    intro ms hms
    rw [uncappedResponseMs] at hms
    split_ifs at hms
    · obtain ⟨x, hx, rfl⟩ := Option.map_eq_some_iff.mp hms
      exact max_lt (by have := (toInt_eq_some.mp hx); omega) hone
    · obtain ⟨sum, -, hms⟩ := Option.bind_eq_some_iff.mp hms
      obtain ⟨x, hx, rfl⟩ := Option.map_eq_some_iff.mp hms
      exact max_lt (by have := (toInt_eq_some.mp hx); omega) hone
    · cases hms
      exact hone
    · cases hms
      decide
  obtain ⟨ms, hms, h⟩ := Option.bind_eq_some_iff.mp h
  split at h
  · obtain ⟨cap, hfits, rfl⟩ := Option.map_eq_some_iff.mp h
    have hcap : max cap 1 < 2 ^ 31 := max_lt (by have := (toInt_eq_some.mp hfits); omega) hone
    split
    · exact lt_of_le_of_lt (min_le_right _ _) hcap
    · exact hcap
  · cases h
    exact huncapped _ hms

/-- `ComputeLegacy` leaves the adaptive time points at zero. -/
theorem computeLegacy_adaptive (h : computeLegacy c o = some b) : b.hasAdaptiveDeadline = false := by
  obtain ⟨seconds, -, h⟩ := Option.bind_eq_some_iff.mp h
  obtain ⟨deadline, -, rfl⟩ := Option.map_eq_some_iff.mp h
  rfl

/-- What `Compute` returns: no adaptive time points, or those behind a positive response deadline. -/
theorem compute_cases (h : compute c o = some b) :
    ∃ legacy, computeLegacy c o = some legacy ∧
      ((c.infinite = true ∧
          b = { legacy with mode := o.mode, mctsTimeSeconds := 0, hardDeadlineMs := 0 }) ∨
        (c.infinite = false ∧ (o.mode = .off ∨ c.ponder = true) ∧ b = { legacy with mode := o.mode }) ∨
        (c.infinite = false ∧ o.mode ≠ .off ∧ c.ponder = false ∧ ∃ response,
          responseMs c o = some response ∧
          (response ≤ 0 ∧ b = { legacy with mode := o.mode } ∨
            1 ≤ response ∧ ∃ floor,
              b = withDeadlines { legacy with mode := o.mode } c o response floor))) := by
  obtain ⟨legacy, hlegacy, h⟩ := Option.bind_eq_some_iff.mp h
  refine ⟨legacy, hlegacy, ?_⟩
  split at h
  next hinfinite =>
    cases h
    exact Or.inl ⟨hinfinite, rfl⟩
  next hinfinite =>
    have hfinite := Bool.eq_false_iff.mpr hinfinite
    split at h
    next hoff =>
      cases h
      exact Or.inr (Or.inl ⟨hfinite, hoff, rfl⟩)
    next hoff =>
      obtain ⟨hmode, hponder⟩ := not_or.mp hoff
      obtain ⟨response, hresponse, h⟩ := Option.bind_eq_some_iff.mp h
      refine Or.inr (Or.inr ⟨hfinite, hmode, Bool.eq_false_iff.mpr hponder, response, hresponse, ?_⟩)
      split at h
      next hzero =>
        cases h
        exact Or.inl ⟨hzero, rfl⟩
      next hpos =>
        obtain ⟨floor, -, rfl⟩ := Option.map_eq_some_iff.mp h
        exact Or.inr ⟨by omega, floor, rfl⟩

/-- Budgets with adaptive time points have them in order. -/
theorem inOrder_of_compute (h : compute c o = some b) (hadaptive : b.hasAdaptiveDeadline = true) :
    InOrder c o b := by
  obtain ⟨legacy, hlegacy, hcases⟩ := compute_cases h
  have hnone := computeLegacy_adaptive hlegacy
  rcases hcases with ⟨-, rfl⟩ | ⟨-, -, rfl⟩ | ⟨-, -, -, response, hresponse, ⟨-, rfl⟩ | ⟨hpos, floor, rfl⟩⟩
  · exact Bool.noConfusion (hnone.symm.trans hadaptive)
  · exact Bool.noConfusion (hnone.symm.trans hadaptive)
  · exact Bool.noConfusion (hnone.symm.trans hadaptive)
  · exact withDeadlines_inOrder hresponse hpos (responseMs_lt hresponse)

end Order

/-! ## Overflow -/

/-- Clocks that are not negative and whose sums fit. -/
structure Control.Fits (c : Control) : Prop where
  main : 0 ≤ c.mainTimeMs
  increment : 0 ≤ c.incrementMs
  byoyomi : 0 ≤ c.byoyomiMs
  move : 0 ≤ c.moveTimeMs
  sum : c.mainTimeMs + c.incrementMs + c.byoyomiMs < 2 ^ 31
  moveTime : c.moveTimeMs < 2 ^ 31

/-- The caps and the overhead are of type `int`, and the overhead is not negative. -/
structure TimeOptions.Fits (o : TimeOptions) : Prop where
  cap : o.maxMoveTimeMs < 2 ^ 31
  cap1m : o.maxMoveTime1mMs < 2 ^ 31
  overhead : 0 ≤ o.moveOverheadMs
  overhead_lt : o.moveOverheadMs < 2 ^ 31

section Overflow

variable {c : Control} {o : TimeOptions} {b : Budget} {x y : Int} {q : ℚ}

theorem toInt_isSome (hlo : -2 ^ 31 ≤ x) (hhi : x < 2 ^ 31) : toInt x = some x :=
  toInt_eq_some.mpr ⟨⟨hlo, hhi⟩, rfl⟩

/-- Rounding up to a multiple of a millionth and one. -/
theorem f32_le_mul (hq : 0 ≤ q) : f32 q ≤ q * (1 + 1 / 10 ^ 6) + 1 := by
  have hle := f32_le hq
  have hdiv : q / 2 ^ 23 ≤ q * (1 / 10 ^ 6) := by
    rw [div_eq_mul_inv]
    exact mul_le_mul_of_nonneg_left (by norm_num) hq
  linarith

theorem cap_lt (ho : o.Fits) : activeMoveCap c o < 2 ^ 31 := by
  rw [activeMoveCap]
  split_ifs
  · exact ho.cap1m
  · exact ho.cap

/-- A literal below one. -/
theorem f32_lit (hq : 0 ≤ q) (hone : q < 1) : 0 ≤ f32 q ∧ f32 q ≤ q + 1 / 10 ^ 6 := by
  have habs : |q| < 2 ^ (0 : ℤ) := by
    rw [abs_of_nonneg hq, zpow_zero]
    exact hone
  have hround := (abs_le.mp (abs_f32_sub_le habs (by decide))).2
  have hsmall : (2 : ℚ) ^ ((0 : ℤ) - 25) ≤ 1 / 10 ^ 6 := by norm_num
  exact ⟨f32_nonneg hq, by linarith only [hround.trans hsmall]⟩

/-- A rounded product with a literal below one. -/
theorem f32_mul_lit {a : ℚ} (lit : ℚ) (ha : 0 ≤ a) (hlit : 0 ≤ lit) (hone : lit < 1) :
    0 ≤ f32 (a * f32 lit) ∧ f32 (a * f32 lit) ≤ a * (lit + 1 / 10 ^ 5) + 1 := by
  obtain ⟨hnonneg, hle⟩ := f32_lit hlit hone
  have hprod : 0 ≤ a * f32 lit := mul_nonneg ha hnonneg
  have hmul : a * f32 lit ≤ a * (lit + 1 / 10 ^ 6) := mul_le_mul_of_nonneg_left hle ha
  have hround := f32_le_mul hprod
  refine ⟨f32_nonneg hprod, hround.trans ?_⟩
  have hextra : (lit + 1 / 10 ^ 6) * (1 + 1 / 10 ^ 6) ≤ lit + 1 / 10 ^ 5 := by linarith
  have hstep : a * f32 lit * (1 + 1 / 10 ^ 6) ≤ a * (lit + 1 / 10 ^ 6) * (1 + 1 / 10 ^ 6) :=
    mul_le_mul_of_nonneg_right hmul (by norm_num)
  have hlast : a * ((lit + 1 / 10 ^ 6) * (1 + 1 / 10 ^ 6)) ≤ a * (lit + 1 / 10 ^ 5) :=
    mul_le_mul_of_nonneg_left hextra ha
  linarith

/-- A clock as a rounded number. -/
theorem f32_clock (hx : 0 ≤ x) : 0 ≤ f32 x ∧ f32 x ≤ x * (1 + 1 / 10 ^ 6) + 1 := by
  have hcast : (0 : ℚ) ≤ x := by exact_mod_cast hx
  exact ⟨f32_nonneg hcast, f32_le_mul hcast⟩

/-- A thousandth, rounded. -/
theorem f32_thousandth (hq : 0 ≤ q) : 0 ≤ f32 (q / 1000) ∧
    f32 (q / 1000) ≤ q / 1000 * (1 + 1 / 10 ^ 6) + 1 := by
  have hdiv : 0 ≤ q / 1000 := div_nonneg hq (by norm_num)
  exact ⟨f32_nonneg hdiv, f32_le_mul hdiv⟩

/-- The durations of `ComputeLegacy` are not negative, and those without a move time leave room for the
watchdog. -/
theorem legacySeconds_spec (hc : c.Fits) (ho : o.Fits) : ∃ seconds, legacySeconds c o = some seconds ∧
    0 ≤ seconds ∧ (c.moveTimeMs ≤ 0 → seconds * 1000 ≤ 2000000000) := by
  have hmove := hc.move
  have hmove' := hc.moveTime
  have hover := ho.overhead
  have hover' := ho.overhead_lt
  rw [legacySeconds]
  split
  next hyes =>
    rw [toInt_isSome (by omega) (by omega)]
    refine ⟨_, rfl, ?_, fun hno => absurd hyes (by omega)⟩
    have hone : (0 : Int) ≤ max (c.moveTimeMs - o.moveOverheadMs) 1 :=
      le_trans (by decide) (le_max_right _ _)
    exact (f32_thousandth (f32_clock hone).1).1
  next =>
    split
    next =>
      have hbyoyomi : (c.byoyomiMs : ℚ) < 2 ^ 31 := by
        have hsum := hc.sum
        have hmain := hc.main
        have hinc := hc.increment
        exact_mod_cast (by omega : c.byoyomiMs < 2 ^ 31)
      obtain ⟨h1, h1'⟩ := f32_clock hc.byoyomi
      obtain ⟨h2, h2'⟩ := f32_thousandth h1
      obtain ⟨h3, h3'⟩ := f32_mul_lit (9 / 10) h2 (by norm_num) (by norm_num)
      exact ⟨_, rfl, h3, fun _ => by linarith⟩
    next =>
      split
      next =>
        have hsum : (c.mainTimeMs : ℚ) + c.incrementMs < 2 ^ 31 := by
          have hsum := hc.sum
          have hbyoyomi := hc.byoyomi
          exact_mod_cast (by omega : c.mainTimeMs + c.incrementMs < 2 ^ 31)
        have hmain : (0 : ℚ) ≤ c.mainTimeMs := by exact_mod_cast hc.main
        have hinc : (0 : ℚ) ≤ c.incrementMs := by exact_mod_cast hc.increment
        obtain ⟨h1, h1'⟩ := f32_clock hc.main
        obtain ⟨h2, h2'⟩ := f32_clock hc.increment
        obtain ⟨h3, h3'⟩ := f32_mul_lit (1 / 20) h1 (by norm_num) (by norm_num)
        obtain ⟨h4, h4'⟩ := f32_mul_lit (4 / 5) h2 (by norm_num) (by norm_num)
        have h5 := f32_nonneg (add_nonneg h3 h4)
        have h5' := f32_le_mul (add_nonneg h3 h4)
        obtain ⟨h6, h6'⟩ := f32_thousandth h5
        have htenth := (f32_lit (q := 1 / 10) (by norm_num) (by norm_num)).2
        refine ⟨_, rfl, le_max_of_le_left h6, fun _ => ?_⟩
        rw [max_mul_of_nonneg _ _ (by norm_num : (0 : ℚ) ≤ 1000)]
        exact max_le (by linarith) (by linarith)
      next => exact ⟨0, rfl, le_rfl, fun _ => by norm_num⟩

theorem legacyDeadline_isSome (c : Control) (cap : Int) {seconds : ℚ} (hpos : 0 ≤ seconds)
    (hle : c.moveTimeMs ≤ 0 → cap ≤ 0 → seconds * 1000 ≤ 2000000000) :
    (legacyDeadline c cap seconds).isSome = true := by
  rw [legacyDeadline]
  split
  next => rfl
  next hmove =>
    split
    next => rfl
    next hcap =>
      split
      next =>
        have hle := hle (by omega) (by omega)
        have hmul : 0 ≤ seconds * 1000 := mul_nonneg hpos (by norm_num)
        have hround := f32_le_mul hmul
        have hnonneg := f32_nonneg hmul
        have hfloor : 0 ≤ ⌊f32 (seconds * 1000)⌋ := Int.floor_nonneg.mpr hnonneg
        have hbound : ⌊f32 (seconds * 1000)⌋ ≤ 2100000000 := by
          have hcast : (⌊f32 (seconds * 1000)⌋ : ℚ) ≤ 2100000000 :=
            (Int.floor_le _).trans (by linarith)
          exact_mod_cast hcast
        rw [truncToInt, if_pos hnonneg, toInt_isSome (by omega) (by omega), Option.bind_some,
          toInt_isSome (by omega) (by omega)]
        rfl
      next => rfl

theorem responseMs_isSome (hc : c.Fits) (ho : o.Fits) : (responseMs c o).isSome = true := by
  have hover := overheadMs_nonneg (o := o)
  have hle : overheadMs o ≤ 5000 := clamp_le (by decide)
  have hcap := cap_lt (c := c) ho
  obtain ⟨hmain, hinc, hbyoyomi, hmove, hsum, hmoveTime⟩ := hc
  have huncapped : ∃ ms, uncappedResponseMs c o = some ms := by
    rw [uncappedResponseMs]
    split_ifs
    · rw [toInt_isSome (by omega) (by omega)]
      exact ⟨_, rfl⟩
    · rw [toInt_isSome (by omega) (by omega), Option.bind_some, toInt_isSome (by omega) (by omega)]
      exact ⟨_, rfl⟩
    · exact ⟨_, rfl⟩
    · exact ⟨_, rfl⟩
  obtain ⟨ms, hms⟩ := huncapped
  rw [responseMs, hms, Option.bind_some]
  split
  · rw [toInt_isSome (by omega) (by omega)]
    rfl
  · rfl

/-- No `int` overflows. -/
theorem compute_isSome (hc : c.Fits) (ho : o.Fits) : (compute c o).isSome = true := by
  have hlegacy : ∃ legacy, computeLegacy c o = some legacy := by
    obtain ⟨seconds, hseconds, hpos, hle⟩ := legacySeconds_spec hc ho
    have hcapped : 0 ≤ cappedSeconds c (activeMoveCap c o) seconds := by
      have hhalf : (0 : ℚ) ≤ max (f32 (f32 (f32 (activeMoveCap c o) / 1000) - f32 (1 / 2))) (f32 (1 / 2)) :=
        le_max_of_le_right (f32_nonneg (by norm_num))
      rw [cappedSeconds]
      dsimp only
      split_ifs
      · exact hpos
      · exact hhalf
      · exact hpos
      · exact hpos
    have hsome := legacyDeadline_isSome c (activeMoveCap c o) hcapped fun hmove hcap => by
      rw [cappedSeconds, if_neg (by omega), if_neg (by omega)]
      exact hle hmove
    obtain ⟨deadline, hdeadline⟩ := Option.isSome_iff_exists.mp hsome
    rw [computeLegacy, hseconds, Option.bind_some]
    dsimp only
    rw [hdeadline]
    exact ⟨_, rfl⟩
  obtain ⟨legacy, hlegacy⟩ := hlegacy
  obtain ⟨response, hresponse⟩ := Option.isSome_iff_exists.mp (responseMs_isSome hc ho)
  have hover := overheadMs_nonneg (o := o)
  have hle : overheadMs o ≤ 5000 := clamp_le (by decide)
  have hfloor : ∃ floor, byoyomiFloor c o = some floor := by
    obtain ⟨hmain, hinc, hbyoyomi, -, hsum, -⟩ := hc
    rw [byoyomiFloor, toInt_isSome (by omega) (by omega)]
    exact ⟨_, rfl⟩
  obtain ⟨floor, hfloor⟩ := hfloor
  rw [compute, hlegacy, Option.bind_some]
  dsimp only
  split_ifs
  · rfl
  · rfl
  · rw [hresponse, Option.bind_some]
    split_ifs
    · rfl
    · rw [hfloor]
      rfl

end Overflow

/-- Clocks whose sums fit overflow nowhere, and whenever the adaptive time points are set they are in
order and keep to the move time, to the clock where there is no move time, and to the cap. -/
theorem compute_ordered (c : Control) (o : TimeOptions) :
    (c.Fits → o.Fits → (compute c o).isSome = true) ∧
      ∀ b, compute c o = some b → b.hasAdaptiveDeadline = true → InOrder c o b :=
  ⟨compute_isSome, fun _ => inOrder_of_compute⟩

/-- Ten seconds for the move, and one second on the clock. -/
def moveTimeAndClock : Control := ⟨1000, 0, 0, 10000, 1, true, false, false, false⟩

/-- The options of an engine that has not been told otherwise, with the manager switched on. -/
def defaultOptions : TimeOptions := ⟨0, 0, 100, 175, .on⟩

/-- A move time takes the place of the clock: the response deadline may be later than the clock. -/
theorem not_clock_bound : moveTimeAndClock.Fits ∧ ∃ b, compute moveTimeAndClock defaultOptions = some b ∧
    b.hasAdaptiveDeadline = true ∧ 0 < moveTimeAndClock.mainTimeMs ∧
    max (moveTimeAndClock.mainTimeMs + moveTimeAndClock.byoyomiMs - overheadMs defaultOptions) 1 <
      b.responseDeadlineMs := by
  have hcompute : (compute moveTimeAndClock defaultOptions).map
      (fun b => (b.hasAdaptiveDeadline, b.responseDeadlineMs)) = some (true, 9900) := by decide +kernel
  obtain ⟨b, hb, hfields⟩ := Option.map_eq_some_iff.mp hcompute
  rw [Prod.mk.injEq] at hfields
  refine ⟨⟨by decide, by decide, by decide, by decide, by decide, by decide⟩, b, hb, hfields.1,
    by decide, ?_⟩
  rw [hfields.2]
  decide

/-- Five minutes on the clock and ten seconds of byoyomi at move 20. -/
example : (compute ⟨300000, 0, 10000, 0, 20, true, false, false, false⟩ defaultOptions).map (fun b =>
    (b.earliestStopMs, b.targetStopMs, b.latestSearchMs, b.responseDeadlineMs)) =
      some (9900, 11111, 19444, 309900) := by
  decide +kernel

end Shogi.TimeManager
