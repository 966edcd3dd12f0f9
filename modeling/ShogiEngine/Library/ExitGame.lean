import Mathlib

/-!
# Games of leaving a graph

Two players move along the edges of a graph until an edge leads out of it. One of them wants to leave
soon, the other one late or not at all.

## Main definitions

- `Arena`: who moves where, and the edges
- `Arena.plies`: how long a pair of strategies stays in the graph
- `Arena.value`: the value of the game
- `Arena.Bellman`: the optimality equations

## Main results

- `value_eq_of_bellman`: a solution of the equations is the value of the game
- `plies_le_of_greedy`: following a choice that attains the equations leaves in time
- `ne_top_iff_of_bellman`: the value is finite where leaving can be forced
-/

namespace ExitGame

/-- At each node one of the players is to move; an edge leads to a node or, if it is `none`, out. -/
structure Arena (ν : Type) where
  minimizer : ν → Prop
  edges : ν → List (Option ν)

/-- A choice of an edge, given the nodes that have been visited and the current one. -/
def Strategy (ν : Type) : Type := List ν → ν → Option ν

/-- The plies that are still to be made after an edge. -/
def cost {ν : Type} (v : ν → ℕ∞) (e : Option ν) : ℕ∞ := e.elim 0 v

namespace Arena

variable {ν : Type} (A : Arena ν)

/-- Following the choices `f` from node `n`, the game ends with ply `k`. -/
def Leaves (f : Strategy ν) : ℕ → List ν → ν → Prop
  | 0, _, _ => False
  | k + 1, h, n => f h n ∈ A.edges n ∧
    (f h n = none ∧ k = 0 ∨ ∃ c, f h n = some c ∧ Leaves f k (n :: h) c)

/-- The number of plies until the choices `f` leave the graph; a choice that is no edge never does. -/
noncomputable def plies (f : Strategy ν) (h : List ν) (n : ν) : ℕ∞ :=
  ⨅ (k : ℕ) (_ : A.Leaves f k h n), (k : ℕ∞)

/-- A strategy that chooses an edge wherever there is one. -/
def Legal (f : Strategy ν) : Prop := ∀ h n, A.edges n ≠ [] → f h n ∈ A.edges n

open Classical in
/-- The choices of both players together. -/
noncomputable def profile (σ τ : Strategy ν) : Strategy ν :=
  fun h n => if A.minimizer n then σ h n else τ h n

/-- The value of the game. -/
noncomputable def value (n : ν) : ℕ∞ :=
  ⨅ σ : Strategy ν, ⨆ (τ : Strategy ν) (_ : A.Legal τ), A.plies (A.profile σ τ) [] n

/-- The optimality equations. A player without an edge never leaves. -/
structure Bellman (v : ν → ℕ∞) : Prop where
  min : ∀ n, A.minimizer n → v n = 1 + ⨅ e ∈ A.edges n, cost v e
  max : ∀ n, ¬ A.minimizer n → A.edges n ≠ [] → v n = 1 + ⨆ e ∈ A.edges n, cost v e
  stuck : ∀ n, ¬ A.minimizer n → A.edges n = [] → v n = ⊤

variable {A} {f σ τ : Strategy ν} {v : ν → ℕ∞} {h : List ν} {n c : ν} {k : ℕ}

/-! ## One ply -/

theorem leaves_pos (hk : A.Leaves f k h n) : 0 < k := by
  cases k with
  | zero => exact hk.elim
  | succ k => exact Nat.succ_pos k

theorem plies_le (hk : A.Leaves f k h n) : A.plies f h n ≤ k := iInf₂_le k hk

theorem le_plies {x : ℕ∞} (hx : ∀ k, A.Leaves f k h n → x ≤ k) : x ≤ A.plies f h n := le_iInf₂ hx

theorem leaves_of_plies (hk : A.plies f h n = k) : A.Leaves f k h n := by
  by_contra hno
  have hle : ((k + 1 : ℕ) : ℕ∞) ≤ A.plies f h n := by
    refine le_plies fun j hj => ?_
    have hkj : k ≤ j := by
      rw [← Nat.cast_le (α := ℕ∞), ← hk]
      exact plies_le hj
    have hne : k ≠ j := fun he => hno (he ▸ hj)
    exact_mod_cast Nat.succ_le_of_lt (lt_of_le_of_ne hkj hne)
  rw [hk, Nat.cast_le] at hle
  omega

/-- The last ply. -/
theorem plies_of_none (hmem : f h n ∈ A.edges n) (hf : f h n = none) : A.plies f h n = 1 := by
  refine le_antisymm (plies_le ⟨hmem, Or.inl ⟨hf, rfl⟩⟩) (le_plies fun k hk => ?_)
  exact_mod_cast leaves_pos hk

/-- Any other ply. -/
theorem plies_of_some (hmem : f h n ∈ A.edges n) (hf : f h n = some c) :
    A.plies f h n = 1 + A.plies f (n :: h) c := by
  have hstep : ∀ k, A.Leaves f (k + 1) h n ↔ A.Leaves f k (n :: h) c := by
    intro k
    rw [Leaves]
    constructor
    · rintro ⟨-, ⟨hnone, -⟩ | ⟨d, hd, hleaves⟩⟩
      · rw [hnone] at hf
        cases hf
      · rw [hd] at hf
        exact Option.some.inj hf ▸ hleaves
    · exact fun hk => ⟨hmem, Or.inr ⟨c, hf, hk⟩⟩
  apply le_antisymm
  · by_cases htop : A.plies f (n :: h) c = ⊤
    · rw [htop, add_top]
      exact le_top
    · obtain ⟨k, hk⟩ := ENat.ne_top_iff_exists.mp htop
      rw [← hk, add_comm]
      exact plies_le ((hstep k).mpr (leaves_of_plies hk.symm))
  · refine le_plies fun k hk => ?_
    cases k with
    | zero => exact hk.elim
    | succ k =>
      rw [Nat.cast_succ, add_comm (k : ℕ∞)]
      exact add_le_add_right (plies_le ((hstep k).mp hk)) 1

theorem plies_of_not_mem (hmem : f h n ∉ A.edges n) : A.plies f h n = ⊤ := by
  refine top_le_iff.mp (le_plies fun k hk => ?_)
  cases k with
  | zero => exact hk.elim
  | succ k => exact absurd hk.1 hmem

theorem plies_eq (hmem : f h n ∈ A.edges n) :
    A.plies f h n = 1 + cost (A.plies f (n :: h)) (f h n) := by
  cases hf : f h n with
  | none => rw [plies_of_none hmem hf, cost, Option.elim_none, add_zero]
  | some c => rw [plies_of_some hmem hf, cost, Option.elim_some]

/-! ## The equations -/

/-- Choices that attain the least cost wherever the equations promise an end. -/
def Greedy (A : Arena ν) (v : ν → ℕ∞) (σ : Strategy ν) : Prop :=
  ∀ h n, A.minimizer n → v n ≠ ⊤ → σ h n ∈ A.edges n ∧ 1 + cost v (σ h n) ≤ v n

/-- Choices that attain the greatest cost. -/
def Slowest (A : Arena ν) (v : ν → ℕ∞) (τ : Strategy ν) : Prop :=
  ∀ h n, ∀ e ∈ A.edges n, cost v e ≤ cost v (τ h n)

theorem lt_of_one_add_le {x : ℕ∞} (hx : 1 + x ≤ k) : ∃ j : ℕ, x = j ∧ j < k := by
  have htop : x ≠ ⊤ := by
    rintro rfl
    rw [add_top, top_le_iff] at hx
    exact ENat.natCast_ne_top k hx
  obtain ⟨j, rfl⟩ := ENat.ne_top_iff_exists.mp htop
  refine ⟨j, rfl, ?_⟩
  have hcast : 1 + j ≤ k := by exact_mod_cast hx
  omega

/-- The maximizer cannot stay longer than the equations say. -/
theorem plies_le_of_greedy (hv : A.Bellman v) (hσ : A.Greedy v σ) (hτ : A.Legal τ) (h : List ν) (n : ν) :
    A.plies (A.profile σ τ) h n ≤ v n := by
  by_cases htop : v n = ⊤
  · rw [htop]
    exact le_top
  obtain ⟨k, hk⟩ := ENat.ne_top_iff_exists.mp htop
  rw [← hk]
  induction k using Nat.strong_induction_on generalizing h n with
  | _ k ih =>
    -- what is chosen is an edge, and costs one ply less
    have hstep : A.profile σ τ h n ∈ A.edges n ∧ 1 + cost v (A.profile σ τ h n) ≤ k := by
      rw [hk]
      by_cases hn : A.minimizer n
      · rw [profile, if_pos hn]
        exact hσ h n hn htop
      · rw [profile, if_neg hn]
        have hne : A.edges n ≠ [] := fun hnil => htop (hv.stuck n hn hnil)
        refine ⟨hτ h n hne, ?_⟩
        rw [hv.max n hn hne]
        exact add_le_add_right
          (le_iSup₂ (f := fun e (_ : e ∈ A.edges n) => cost v e) _ (hτ h n hne)) 1
    rw [plies_eq hstep.1]
    cases hf : A.profile σ τ h n with
    | none =>
      rw [hf] at hstep
      exact hstep.2
    | some c =>
      rw [hf] at hstep
      obtain ⟨j, hj, hlt⟩ := lt_of_one_add_le hstep.2
      have hle : A.plies (A.profile σ τ) (n :: h) c ≤ j := ih j hlt (n :: h) c (by
        rw [show v c = j from hj]
        exact ENat.natCast_ne_top j) hj.symm
      refine (add_le_add_right hle 1).trans ?_
      have hcost := hstep.2
      rw [hj] at hcost
      exact hcost

/-- Against the slowest replies the minimizer cannot leave sooner than the equations say. -/
theorem le_plies_of_slowest (hv : A.Bellman v) (hslow : A.Slowest v τ) (σ : Strategy ν) (m : ℕ)
    (h : List ν) (n : ν) (hm : (m : ℕ∞) ≤ v n) : (m : ℕ∞) ≤ A.plies (A.profile σ τ) h n := by
  induction m generalizing h n with
  | zero => exact zero_le
  | succ m ih =>
    by_cases hmem : A.profile σ τ h n ∈ A.edges n
    · rw [plies_eq hmem]
      have hle : v n ≤ 1 + cost v (A.profile σ τ h n) := by
        by_cases hn : A.minimizer n
        · rw [hv.min n hn]
          exact add_le_add_right (iInf₂_le _ hmem) 1
        · rw [profile, if_neg hn] at hmem ⊢
          rw [hv.max n hn (List.ne_nil_of_mem hmem)]
          exact add_le_add_right (iSup₂_le (hslow h n)) 1
      have hcost : (m : ℕ∞) ≤ cost v (A.profile σ τ h n) := by
        have hsum := hm.trans hle
        rw [Nat.cast_succ, add_comm] at hsum
        exact (ENat.add_le_add_iff_left (by decide)).mp hsum
      rw [Nat.cast_succ, add_comm]
      refine add_le_add_right ?_ 1
      cases hf : A.profile σ τ h n with
      | none =>
        rw [hf] at hcost
        exact hcost
      | some c =>
        rw [hf] at hcost
        exact ih (n :: h) c hcost
    · rw [plies_of_not_mem hmem]
      exact le_top

theorem exists_greedy (hv : A.Bellman v) : ∃ σ, A.Greedy v σ := by
  have hchoice : ∀ n, ∃ e, A.minimizer n → v n ≠ ⊤ → e ∈ A.edges n ∧ 1 + cost v e ≤ v n := by
    intro n
    by_cases hn : A.minimizer n ∧ v n ≠ ⊤
    · obtain ⟨hn, htop⟩ := hn
      have hmin := hv.min n hn
      have hne : A.edges n ≠ [] := by
        intro hnil
        rw [hnil] at hmin
        refine htop (hmin.trans ?_)
        simp
      obtain ⟨e, he⟩ := Option.ne_none_iff_exists'.mp (mt (List.argmin_eq_none (f := cost v)).mp hne)
      refine ⟨e, fun _ _ => ⟨List.argmin_mem he, ?_⟩⟩
      rw [hmin]
      exact add_le_add_right (le_iInf₂ fun d hd => List.le_of_mem_argmin hd he) 1
    · exact ⟨none, fun h1 h2 => absurd ⟨h1, h2⟩ hn⟩
  choose σ hσ using hchoice
  exact ⟨fun _ n => σ n, fun _ n => hσ n⟩

theorem exists_slowest (A : Arena ν) (v : ν → ℕ∞) : ∃ τ, A.Legal τ ∧ A.Slowest v τ := by
  have hchoice : ∀ n, ∃ e, (A.edges n ≠ [] → e ∈ A.edges n) ∧ ∀ d ∈ A.edges n, cost v d ≤ cost v e := by
    intro n
    by_cases hne : A.edges n = []
    · refine ⟨none, fun h => absurd hne h, fun d hd => ?_⟩
      rw [hne] at hd
      cases hd
    · obtain ⟨e, he⟩ := Option.ne_none_iff_exists'.mp (mt (List.argmax_eq_none (f := cost v)).mp hne)
      exact ⟨e, fun _ => List.argmax_mem he, fun d hd => List.le_of_mem_argmax hd he⟩
  choose τ hτ using hchoice
  exact ⟨fun _ n => τ n, fun _ n => (hτ n).1, fun _ n => (hτ n).2⟩

/-- The optimality equations have one solution, the value of the game. -/
theorem value_eq_of_bellman (hv : A.Bellman v) (n : ν) : A.value n = v n := by
  apply le_antisymm
  · obtain ⟨σ, hσ⟩ := exists_greedy hv
    exact (iInf_le _ σ).trans (iSup₂_le fun τ hτ => plies_le_of_greedy hv hσ hτ [] n)
  · obtain ⟨τ, hlegal, hslow⟩ := exists_slowest A v
    refine le_iInf fun σ => le_trans ?_ (le_iSup₂ τ hlegal)
    exact ENat.forall_natCast_le_iff_le.mp fun m hm => le_plies_of_slowest hv hslow σ m [] n hm

/-- The value is finite where the minimizer can leave, whatever the maximizer does. -/
theorem ne_top_iff_of_bellman (hv : A.Bellman v) (n : ν) :
    v n ≠ ⊤ ↔ ∃ σ, ∀ τ, A.Legal τ → A.plies (A.profile σ τ) [] n ≠ ⊤ := by
  constructor
  · intro htop
    obtain ⟨σ, hσ⟩ := exists_greedy hv
    refine ⟨σ, fun τ hτ h => htop (top_le_iff.mp ?_)⟩
    rw [← h]
    exact plies_le_of_greedy hv hσ hτ [] n
  · rintro ⟨σ, hσ⟩ htop
    obtain ⟨τ, hlegal, hslow⟩ := exists_slowest A v
    refine hσ τ hlegal (top_le_iff.mp ?_)
    rw [← htop]
    exact ENat.forall_natCast_le_iff_le.mp fun m hm => le_plies_of_slowest hv hslow σ m [] n hm

end Arena

end ExitGame
