import Mathlib.Analysis.SpecialFunctions.Log.Basic
import Mathlib.Analysis.Complex.ExponentialBounds
import ShogiEngine.Library.Binary32
import ShogiEngine.Mcts.TreeReuse
import ShogiEngine.Shogi.Types

/-!
# The butterfly table

`ButterflyTable` keeps a 16-bit score for each side, source and destination of moves. Search threads update
it with a compare-and-swap loop for each cell. An update pulls a score towards zero by more the larger it
is, which is to keep it in bounds.

## Main definitions

- `Logit`: what the logarithm and the rounding of the library do
- `gravity`: what an update makes of a score
- `Table`, `Event`: the cells with all values they have held, and what the threads do to them

## Main results

- `abs_pull_le`: scores within the reduction factor stay there
- `abs_logit_le`: how large the score of one update can be
- `cells_of_run`: no update overflows, and the scores stay in bounds in every interleaving
-/

namespace Shogi.Mcts.Butterfly

open Real

/-! ## One update -/

/-- `kFromIds`. -/
def kFromIds : Nat := 81 + 7

/-- `Index`. -/
def index (side : Color) : Move → Nat
  | .normal src dst => (side.idx * kFromIds + src.val) * 81 + dst.val
  | .promotion src dst => (side.idx * kFromIds + src.val) * 81 + dst.val
  | .drop pt dst => (side.idx * kFromIds + (81 + (pt.idx - 1))) * 81 + dst.val

/-- The bounds of scores, `0.001f` and `0.999f`. -/
def kMinScore : ℚ := Binary32.f32 (1 / 1000)

def kMaxScore : ℚ := Binary32.f32 (999 / 1000)

/-- `std::lround(-400.0 * std::log(1.0 / score - 1.0))`, which the library computes to within one. -/
structure Logit where
  lround : ℚ → Int
  near : ∀ s : ℚ, 0 < s → s < 1 → |(lround s : ℝ) - -400 * log (1 / s - 1)| ≤ 1

/-- Rounding of the exact logarithm. -/
noncomputable def Logit.exact : Logit where
  lround s := round (-400 * log (1 / s - 1))
  near s _ _ := by
    have hround := abs_sub_round (-400 * log (1 / s - 1))
    rw [abs_sub_comm]
    linarith

noncomputable instance : Inhabited Logit := ⟨Logit.exact⟩

/-- A value of type `int`. -/
def int (x : Int) : Option Int := if -2 ^ 31 ≤ x ∧ x < 2 ^ 31 then some x else none

/-- `score` within its bounds. -/
def clampScore (score : ℚ) : ℚ :=
  if score < kMinScore then kMinScore else if kMaxScore < score then kMaxScore else score

/-- A value within the bounds of a cell. -/
def clamp (x : Int) : Int := if x < -32767 then -32767 else if 32767 < x then 32767 else x

/-- `cp`. -/
def centipawns (logit : Logit) (score : ℚ) : Option Int :=
  (int (logit.lround (clampScore score))).map clamp

/-- `rf`. -/
def factor (reductionFactor : Int) : Int := if reductionFactor < 1 then 1 else reductionFactor

/-- `nv`. -/
def gravity (rf cp cur : Int) : Option Int := do
  let size ← int |cp|
  let product ← int (cur * size)
  let adjusted ← int (cp - product.tdiv rf)
  let nv ← int (cur + clamp adjusted)
  return clamp nv

/-! ## All threads -/

/-- The arguments of an update; the score of `none` is not finite. -/
structure Call where
  side : Color
  move : Move
  score : Option ℚ

/-- The loop of `UpdateButterfly`, from the last edge of the path to the first. -/
def updateCalls (rootStm : Color) : List (ChildData Move) → Option ℚ → List Call
  | [], _ => []
  | edge :: above, value =>
    let side := if above.length % 2 = 0 then rootStm else ~~~rootStm
    let proven := edge.flags .win || edge.flags .loss || edge.flags .draw
    (if proven then [] else [⟨side, edge.move, value⟩]) ++
      updateCalls rootStm above (value.map fun v => Binary32.f32 (1 - v))

/-- `UpdateButterfly`. -/
def updateButterfly (rootStm : Color) (path : List (ChildData Move)) (leafEdgeValue : Option ℚ) : List Call :=
  updateCalls rootStm path.reverse leafEdgeValue

/-- A thread in the loop of `Update`. -/
structure Pending where
  cell : Nat
  cp : Int
  cur : BitVec 16

/-- For each cell all values that it has held, the newest first, and what the threads are at. -/
structure Table where
  cells : Nat → List (BitVec 16)
  threads : Nat → Option Pending

/-- What a thread does: the first load of an update, a round of the loop, and one store of `Clear`. A load
sees some value that the cell has held, `seen` places back. -/
inductive Event
  | load (thread : Nat) (call : Call) (seen : Nat)
  | exchange (thread : Nat) (spurious : Bool) (seen : Nat)
  | clear (cell : Nat)

namespace Table

/-- After `Clear`. -/
def start : Table := ⟨fun _ => [0], fun _ => none⟩

/-- A load of a cell. -/
def seen (s : Table) (cell k : Nat) : BitVec 16 := (s.cells cell).getD k ((s.cells cell).headD 0)

def store (s : Table) (cell : Nat) (v : BitVec 16) : Table :=
  { s with cells := Function.update s.cells cell (v :: s.cells cell) }

def setThread (s : Table) (thread : Nat) (p : Option Pending) : Table :=
  { s with threads := Function.update s.threads thread p }

/-- `compare_exchange_weak`, which may fail for no reason and then loads the cell. -/
def exchange (s : Table) (thread : Nat) (p : Pending) (nv : BitVec 16) (spurious : Bool) (k : Nat) : Table :=
  if (s.cells p.cell).head? = some p.cur ∧ ¬spurious then (s.store p.cell nv).setThread thread none
  else s.setThread thread (some { p with cur := s.seen p.cell k })

/-- One event; `none` if an `int` overflows. -/
def step (logit : Logit) (reductionFactor : Int) (s : Table) : Event → Option Table
  | .load thread call k =>
    -- a thread is in one call at a time, and returns from it at once if the score is not finite
    if (s.threads thread).isSome then some s
    else call.score.elim (some s) fun score => (centipawns logit score).map fun cp =>
      s.setThread thread (some ⟨index call.side call.move, cp, s.seen (index call.side call.move) k⟩)
  | .exchange thread spurious k => (s.threads thread).elim (some s) fun p =>
    (gravity (factor reductionFactor) p.cp p.cur.toInt).map fun nv =>
      s.exchange thread p (BitVec.ofInt 16 nv) spurious k
  | .clear cell => some (s.store cell 0)

end Table

/-- An update is for an edge that is not proven, and for the player who moved there. -/
theorem mem_updateButterfly {rootStm : Color} {path : List (ChildData Move)} {leafEdgeValue : Option ℚ} {call : Call}
    (h : call ∈ updateButterfly rootStm path leafEdgeValue) : ∃ i edge, path[i]? = some edge ∧
      call.move = edge.move ∧ call.side = (if i % 2 = 0 then rootStm else ~~~rootStm) ∧
      ∀ o, edge.flags o = false := by
  rw [updateButterfly] at h
  obtain ⟨above, habove⟩ : ∃ l, path.reverse = l := ⟨_, rfl⟩
  rw [habove] at h
  rw [List.reverse_eq_iff] at habove
  induction above generalizing path leafEdgeValue with
  | nil => cases h
  | cons edge above ih =>
    rw [List.reverse_cons] at habove
    rw [updateCalls] at h
    rcases List.mem_append.mp h with h | h
    · split at h
      · cases h
      · rename_i hproven
        rw [Bool.or_eq_true, Bool.or_eq_true, not_or, not_or] at hproven
        obtain rfl := List.mem_singleton.mp h
        refine ⟨above.length, edge, ?_, rfl, rfl, fun o => ?_⟩
        · rw [habove, List.getElem?_append_right (by rw [List.length_reverse]), List.length_reverse, Nat.sub_self]
          rfl
        · cases o with
          | win => exact Bool.not_eq_true _ ▸ hproven.1.1
          | loss => exact Bool.not_eq_true _ ▸ hproven.1.2
          | draw => exact Bool.not_eq_true _ ▸ hproven.2
    · obtain ⟨i, e, hi, hrest⟩ := ih h rfl
      refine ⟨i, e, ?_, hrest⟩
      rw [habove, List.getElem?_append_left (List.getElem?_eq_some_iff.mp hi).1]
      exact hi

/-- Moves of the board and drops of hand pieces have cells in the table. -/
theorem index_lt {side : Color} {m : Move} (h : ∀ pt dst, m = .drop pt dst → 1 ≤ pt.idx ∧ pt.idx ≤ 7) :
    index side m < 2 * kFromIds * 81 := by
  have hside : side.idx ≤ 1 := by cases side <;> decide
  rw [kFromIds]
  cases m with
  | normal src dst =>
    rw [index, kFromIds]
    have hsrc := src.isLt
    have hdst := dst.isLt
    omega
  | promotion src dst =>
    rw [index, kFromIds]
    have hsrc := src.isLt
    have hdst := dst.isLt
    omega
  | drop pt dst =>
    rw [index, kFromIds]
    have hpt := h pt dst rfl
    have hdst := dst.isLt
    omega

/-! ## What an update makes of a score -/

section Gravity

variable {rf cp cur x : Int}

theorem int_of_abs_lt (h : |x| < 2 ^ 31) : int x = some x := by
  rw [abs_lt] at h
  exact if_pos (by omega)

theorem clamp_mem (x : Int) : -32767 ≤ clamp x ∧ clamp x ≤ 32767 := by
  rw [clamp]
  split_ifs <;> omega

theorem clamp_of_mem (h : -32767 ≤ x ∧ x ≤ 32767) : clamp x = x := by
  rw [clamp, if_neg (by omega), if_neg (by omega)]

theorem factor_pos (reductionFactor : Int) : 0 < factor reductionFactor := by
  rw [factor]
  split <;> omega

/-- The part that an update takes off has the sign of the score, and is at most the score and the value. -/
theorem tdiv_bounds (hrf : 0 < rf) (hcur : 0 ≤ cur) (hle : cur ≤ rf) (hcp : |cp| ≤ rf) :
    0 ≤ (cur * |cp|).tdiv rf ∧ (cur * |cp|).tdiv rf ≤ cur ∧ (cur * |cp|).tdiv rf ≤ |cp| ∧
      cur + |cp| - rf ≤ (cur * |cp|).tdiv rf := by
  have hnonneg := abs_nonneg cp
  have hproduct : 0 ≤ cur * |cp| := mul_nonneg hcur hnonneg
  rw [Int.tdiv_eq_ediv_of_nonneg hproduct]
  refine ⟨Int.ediv_nonneg hproduct hrf.le, ?_, ?_, ?_⟩
  · apply Int.ediv_le_of_le_mul hrf
    exact mul_le_mul_of_nonneg_left hcp hcur
  · apply Int.ediv_le_of_le_mul hrf
    rw [mul_comm]
    exact mul_le_mul_of_nonneg_left hle hnonneg
  · -- the product of what both lack of the factor is not negative
    apply Int.le_ediv_of_mul_le hrf
    have hlack : 0 ≤ (rf - cur) * (rf - |cp|) := mul_nonneg (by omega) (by omega)
    linarith

/-- A score within the factor stays there: the division rounds towards zero on both sides. -/
theorem abs_pull_le (hrf : 0 < rf) (hcur : |cur| ≤ rf) (hcp : |cp| ≤ rf) :
    |cur + (cp - (cur * |cp|).tdiv rf)| ≤ rf := by
  rw [abs_le] at hcur
  rcases le_total 0 cur with hsign | hsign
  · obtain ⟨h0, h1, h2, h3⟩ := tdiv_bounds hrf hsign hcur.2 hcp
    rw [abs_le]
    rcases abs_cases cp with ⟨habs, -⟩ | ⟨habs, -⟩ <;> constructor <;> omega
  · have hneg : 0 ≤ -cur := by omega
    obtain ⟨h0, h1, h2, h3⟩ := tdiv_bounds hrf hneg (by omega) hcp
    rw [neg_mul, Int.neg_tdiv] at h0 h1 h2 h3
    rw [abs_le]
    rcases abs_cases cp with ⟨habs, -⟩ | ⟨habs, -⟩ <;> constructor <;> omega

/-- Nothing overflows. -/
theorem gravity_eq (rf : Int) (hcur : |cur| ≤ 32768) (hcp : |cp| ≤ 32767) :
    gravity rf cp cur = some (clamp (cur + clamp (cp - (cur * |cp|).tdiv rf))) := by
  have hsize : |(|cp|)| ≤ 32767 := by rwa [abs_abs]
  have hproduct : |(cur * |cp|)| ≤ 32768 * 32767 := by
    rw [abs_mul]
    exact mul_le_mul hcur hsize (abs_nonneg _) (by decide)
  have hquotient : |((cur * |cp|).tdiv rf)| ≤ 32768 * 32767 := by
    have hle := Int.natAbs_tdiv_le_natAbs (cur * |cp|) rf
    rw [Int.abs_eq_natAbs] at hproduct ⊢
    omega
  have hclamp := clamp_mem (cp - (cur * |cp|).tdiv rf)
  have hadjusted : |cp - (cur * |cp|).tdiv rf| < 2 ^ 31 := by
    rw [abs_le] at hcp hquotient
    rw [abs_lt]
    omega
  have hnv : |cur + clamp (cp - (cur * |cp|).tdiv rf)| < 2 ^ 31 := by
    rw [abs_le] at hcur
    rw [abs_lt]
    omega
  simp only [gravity, Option.bind_eq_bind]
  rw [int_of_abs_lt (by omega), Option.bind_some, int_of_abs_lt (by omega), Option.bind_some,
    int_of_abs_lt hadjusted, Option.bind_some, int_of_abs_lt hnv]
  rfl

/-- What an update stores is within the factor, if the score and the value are. -/
theorem abs_clamp_pull_le (hrf : 0 < rf) (hcur : |cur| ≤ rf) (hcp : |cp| ≤ rf) :
    |clamp (cur + clamp (cp - (cur * |cp|).tdiv rf))| ≤ rf := by
  have hpull := abs_pull_le hrf hcur hcp
  generalize (cur * |cp|).tdiv rf = q at hpull ⊢
  rw [abs_le] at hcur hpull ⊢
  rw [clamp, clamp]
  split_ifs <;> omega

end Gravity

/-! ## How large the score of one update is -/

section Logit

variable {s : ℚ} {logit : Logit}

theorem kMinScore_mem : 10 / 10001 ≤ kMinScore ∧ kMinScore ≤ 1 / 2 := by
  have hround := Binary32.abs_f32_sub_le (x := 1 / 1000) (e := -9) (by norm_num) (by norm_num)
  have herror : (2 : ℚ) ^ (-9 - 25 : ℤ) ≤ 1 / 10000000000 := by norm_num
  rw [abs_le] at hround
  rw [kMinScore]
  constructor <;> linarith [hround.1, hround.2]

theorem kMaxScore_mem : 1 / 2 ≤ kMaxScore ∧ kMaxScore ≤ 9991 / 10001 := by
  have hround := Binary32.abs_f32_sub_le (x := 999 / 1000) (e := 0) (by norm_num) (by norm_num)
  have herror : (2 : ℚ) ^ (0 - 25 : ℤ) ≤ 1 / 30000000 := by norm_num
  rw [abs_le] at hround
  rw [kMaxScore]
  constructor <;> linarith [hround.1, hround.2]

theorem clampScore_mem (s : ℚ) : 10 / 10001 ≤ clampScore s ∧ clampScore s ≤ 9991 / 10001 := by
  obtain ⟨hmin, hmin'⟩ := kMinScore_mem
  obtain ⟨hmax', hmax⟩ := kMaxScore_mem
  rw [clampScore]
  split_ifs <;> constructor <;> linarith

theorem log_lt : log (9991 / 10) < 2763 / 400 := by
  have hsplit : log (9991 / 10) = 10 * log 2 + log (9991 / 10240) := by
    have hfactor : (9991 / 10 : ℝ) = 2 ^ 10 * (9991 / 10240) := by norm_num
    rw [hfactor, log_mul (by norm_num) (by norm_num), log_pow]
    norm_num
  have hrest := log_le_sub_one_of_pos (x := 9991 / 10240) (by norm_num)
  have htwo := log_two_lt_d9
  rw [hsplit]
  linarith

/-- The odds of scores within the bounds lie between `10 / 9991` and `9991 / 10`. -/
theorem abs_log_odds_lt (hs : 10 / 10001 ≤ s) (hs' : s ≤ 9991 / 10001) :
    |log (1 / s - 1)| < 2763 / 400 := by
  have hpos : (0 : ℝ) < s := by
    have hpos : (0 : ℚ) < s := by linarith
    exact_mod_cast hpos
  have hle : (1 / s - 1 : ℝ) ≤ 9991 / 10 := by
    have hinv : (1 / s : ℝ) ≤ 10001 / 10 := by
      rw [div_le_div_iff₀ hpos (by norm_num)]
      have hs : ((10 / 10001 : ℚ) : ℝ) ≤ s := by exact_mod_cast hs
      push_cast at hs
      linarith
    linarith
  have hge : (10 / 9991 : ℝ) ≤ 1 / s - 1 := by
    have hinv : (10001 / 9991 : ℝ) ≤ 1 / s := by
      rw [div_le_div_iff₀ (by norm_num) hpos]
      have hs : (s : ℝ) ≤ ((9991 / 10001 : ℚ) : ℝ) := by exact_mod_cast hs'
      push_cast at hs
      linarith
    linarith
  have hlog := log_lt
  have hupper := log_le_log (by linarith) hle
  have hlower := log_le_log (by norm_num) hge
  have hinv : log (10 / 9991) = -log (9991 / 10) := by
    rw [← log_inv]
    norm_num
  rw [abs_lt]
  constructor <;> linarith

/-- The score of one update. -/
theorem abs_logit_le (logit : Logit) (score : ℚ) : |logit.lround (clampScore score)| ≤ 2763 := by
  obtain ⟨hmin, hmax⟩ := clampScore_mem score
  have hnear := logit.near (clampScore score) (by linarith) (by linarith)
  have hodds := abs_log_odds_lt hmin hmax
  have hlt : |(logit.lround (clampScore score) : ℝ)| < 2764 := by
    rw [abs_le] at hnear
    rw [abs_lt] at hodds ⊢
    constructor <;> linarith
  have hint : |logit.lround (clampScore score)| < 2764 := by exact_mod_cast hlt
  omega

theorem centipawns_eq (logit : Logit) (score : ℚ) :
    centipawns logit score = some (logit.lround (clampScore score)) := by
  have hle := abs_logit_le logit score
  rw [centipawns, int_of_abs_lt (by omega), Option.map_some, clamp_of_mem (by rw [abs_le] at hle; omega)]

end Logit

/-! ## Runs -/

namespace Table

variable {logit : Logit} {reductionFactor b : Int} {s : Table} {v : BitVec 16} {thread cell : Nat} {p : Pending}

theorem cells_store (s : Table) (cell : Nat) (v : BitVec 16) :
    (s.store cell v).cells = Function.update s.cells cell (v :: s.cells cell) := rfl

theorem threads_setThread (s : Table) (thread : Nat) (q : Option Pending) (t : Nat) :
    (s.setThread thread q).threads t = if t = thread then q else s.threads t := by
  exact Function.update_apply _ _ _ _

/-- All values that cells have held are within a bound, and so are those that threads have loaded. -/
structure Bounded (logit : Logit) (b : Int) (s : Table) : Prop where
  cells : ∀ c, ∀ v ∈ s.cells c, |v.toInt| ≤ b
  cur : ∀ t p, s.threads t = some p → |p.cur.toInt| ≤ b
  cp : ∀ t p, s.threads t = some p → ∃ score, p.cp = logit.lround (clampScore score)

/-- Every update stays within the bound. -/
def Keeps (logit : Logit) (rf b : Int) : Prop :=
  ∀ score cur, |cur| ≤ b →
    |clamp (cur + clamp (logit.lround (clampScore score) - (cur * |logit.lround (clampScore score)|).tdiv rf))| ≤ b

namespace Bounded

theorem seen (hs : s.Bounded logit b) (hb : 0 ≤ b) (cell k : Nat) : |(s.seen cell k).toInt| ≤ b := by
  rw [Table.seen]
  by_cases hk : k < (s.cells cell).length
  · rw [List.getD_eq_getElem _ _ hk]
    exact hs.cells cell _ (List.getElem_mem hk)
  · rw [List.getD_eq_default _ _ (not_lt.mp hk)]
    cases hcell : s.cells cell with
    | nil => exact hb
    | cons v rest => exact hs.cells cell v (hcell ▸ List.mem_cons_self)

theorem store (hs : s.Bounded logit b) (cell : Nat) (hv : |v.toInt| ≤ b) : (s.store cell v).Bounded logit b where
  cells := fun c x hx => by
    rw [cells_store] at hx
    by_cases hc : c = cell
    · subst hc
      rw [Function.update_self] at hx
      rcases List.mem_cons.mp hx with rfl | hx
      · exact hv
      · exact hs.cells c x hx
    · rw [Function.update_of_ne hc] at hx
      exact hs.cells c x hx
  cur := hs.cur
  cp := hs.cp

theorem setThread_none (hs : s.Bounded logit b) (thread : Nat) : (s.setThread thread none).Bounded logit b where
  cells := hs.cells
  cur := fun t p hp => by
    rw [threads_setThread] at hp
    exact hs.cur t p (Option.ite_none_left_eq_some.mp hp).2
  cp := fun t p hp => by
    rw [threads_setThread] at hp
    exact hs.cp t p (Option.ite_none_left_eq_some.mp hp).2

theorem setThread_some (hs : s.Bounded logit b) (thread : Nat) (hcur : |p.cur.toInt| ≤ b)
    (hcp : ∃ score, p.cp = logit.lround (clampScore score)) :
    (s.setThread thread (some p)).Bounded logit b := by
  have hthread : ∀ t q, (s.setThread thread (some p)).threads t = some q → q = p ∨ s.threads t = some q := by
    intro t q hq
    rw [threads_setThread] at hq
    split at hq
    · exact .inl (Option.some.inj hq).symm
    · exact .inr hq
  refine ⟨hs.cells, fun t q hq => ?_, fun t q hq => ?_⟩
  · rcases hthread t q hq with rfl | hq
    · exact hcur
    · exact hs.cur t q hq
  · rcases hthread t q hq with rfl | hq
    · exact hcp
    · exact hs.cp t q hq

/-- No event overflows, and none leaves the bound. -/
theorem step (hs : s.Bounded logit b) (hb : 0 ≤ b) (hb' : b ≤ 32767)
    (hkeeps : Keeps logit (factor reductionFactor) b) (e : Event) :
    ∃ s', s.step logit reductionFactor e = some s' ∧ s'.Bounded logit b := by
  cases e with
  | load thread call k =>
    rw [Table.step]
    split
    · exact ⟨s, rfl, hs⟩
    cases hscore : call.score with
    | none => exact ⟨s, rfl, hs⟩
    | some score =>
      rw [Option.elim_some, centipawns_eq]
      exact ⟨_, rfl, hs.setThread_some thread (hs.seen hb _ k) ⟨score, rfl⟩⟩
  | exchange thread spurious k =>
    rw [Table.step]
    cases hp : s.threads thread with
    | none => exact ⟨s, rfl, hs⟩
    | some p =>
      obtain ⟨score, hcp⟩ := hs.cp thread p hp
      have hcur := hs.cur thread p hp
      have hlogit := abs_logit_le logit score
      rw [Option.elim_some, gravity_eq _ (hcur.trans (by omega)) (hcp ▸ hlogit.trans (by decide)), Option.map_some]
      refine ⟨_, rfl, ?_⟩
      rw [exchange]
      split
      · -- the new value fits the cell
        have hnv := hkeeps score _ hcur
        rw [← hcp] at hnv
        refine (hs.store p.cell ?_).setThread_none thread
        have hwide := abs_le.mp (hnv.trans hb')
        rw [BitVec.toInt_ofInt_eq_self (by decide) (by omega) (by omega)]
        exact hnv
      · exact hs.setThread_some thread (hs.seen hb _ k) ⟨score, hcp⟩
  | clear cell => exact ⟨_, rfl, hs.store cell hb⟩

theorem run (hs : s.Bounded logit b) (hb : 0 ≤ b) (hb' : b ≤ 32767)
    (hkeeps : Keeps logit (factor reductionFactor) b) (events : List Event) :
    ∃ s', events.foldlM (Table.step logit reductionFactor) s = some s' ∧ s'.Bounded logit b := by
  induction events generalizing s with
  | nil => exact ⟨s, rfl, hs⟩
  | cons e events ih =>
    obtain ⟨s1, hs1, hb1⟩ := hs.step hb hb' hkeeps e
    obtain ⟨s2, hs2, hb2⟩ := ih hb1
    refine ⟨s2, ?_, hb2⟩
    rw [List.foldlM_cons, hs1]
    exact hs2

end Bounded

theorem bounded_start (logit : Logit) (hb : 0 ≤ b) : start.Bounded logit b where
  cells := fun _ v hv => by
    rw [List.mem_singleton.mp hv]
    exact hb
  cur := fun _ _ hp => nomatch hp
  cp := fun _ _ hp => nomatch hp

/-- In every interleaving of updates no `int` overflows, and the scores stay within 16 bits; they stay within
the reduction factor, if no update has a larger score. -/
theorem cells_of_run (logit : Logit) (reductionFactor : Int) (events : List Event) :
    ∃ s, events.foldlM (step logit reductionFactor) start = some s ∧
      (∀ c, ∀ v ∈ s.cells c, -32767 ≤ v.toInt ∧ v.toInt ≤ 32767) ∧
      ((∀ score cp, centipawns logit score = some cp → |cp| ≤ factor reductionFactor) →
        ∀ c, ∀ v ∈ s.cells c, -factor reductionFactor ≤ v.toInt ∧ v.toInt ≤ factor reductionFactor) := by
  have hpos := factor_pos reductionFactor
  have hwide : Keeps logit (factor reductionFactor) 32767 := fun _ _ _ => abs_le.mpr (clamp_mem _)
  obtain ⟨s, hs, hbounded⟩ := (bounded_start logit (by decide)).run (by decide) le_rfl hwide events
  refine ⟨s, hs, fun c v hv => abs_le.mp (hbounded.cells c v hv), fun hcp c v hv => ?_⟩
  -- both bounds hold together
  have hkeeps : Keeps logit (factor reductionFactor) (min (factor reductionFactor) 32767) := by
    intro score cur hcur
    have hpull := abs_clamp_pull_le hpos (hcur.trans (min_le_left _ _)) (hcp score _ (centipawns_eq logit score))
    exact le_min hpull (abs_le.mpr (clamp_mem _))
  obtain ⟨s', hs', hbounded'⟩ := (bounded_start logit (le_min hpos.le (by decide))).run
    (le_min hpos.le (by decide)) (min_le_right _ _) hkeeps events
  obtain rfl := Option.some.inj (hs.symm.trans hs')
  exact abs_le.mp ((hbounded'.cells c v hv).trans (min_le_left _ _))

end Table

end Shogi.Mcts.Butterfly
