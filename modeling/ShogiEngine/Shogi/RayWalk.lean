import ShogiEngine.Shogi.Sliders

/-!
# Rays walked square by square

The squares that a slider attacks, as they are found on a board: from its square it walks along
each of its rays, until and including the first occupied square.

## Main definitions

- `RayWalk`: the squares met on a ray

## Main results

- `rayWalk_iff`: a walk meets the squares of the ray to which the way is clear
- `slider_effects_iff_rayWalk`: the bitboards of `shogi/bitboard.h` hold the squares of the walks
-/

namespace Shogi

/-- The squares met on a walk from `s` in steps of `d`, which ends on the first occupied square or
at the edge of the board. -/
inductive RayWalk (d : Int × Int) (occ : Square → Prop) (s : Square) : Square → Prop
  | first {t : Square} (step : IsStep d.1 d.2 s t) : RayWalk d occ s t
  | next {t u : Square} (walk : RayWalk d occ s t) (free : ¬ occ t) (step : IsStep d.1 d.2 t u) :
      RayWalk d occ s u

section Walk

variable {d : Int × Int} {occ : Square → Prop} {s t u : Square} {k : Nat}

theorem StepsAway.unique (ht : StepsAway d k s t) (hu : StepsAway d k s u) : t = u := by
  obtain ⟨h1, h2⟩ := ht
  obtain ⟨h3, h4⟩ := hu
  exact Square.ext_coord (by omega) (by omega)

theorem StepsAway.snoc (h : StepsAway d k s t) (hu : IsStep d.1 d.2 t u) :
    StepsAway d (k + 1) s u := by
  obtain ⟨h1, h2⟩ := h
  obtain ⟨h3, h4⟩ := hu
  have hf : ((k + 1 : Nat) : Int) * d.1 = k * d.1 + d.1 := by push_cast; ring
  have hr : ((k + 1 : Nat) : Int) * d.2 = k * d.2 + d.2 := by push_cast; ring
  constructor
  · rw [hf]
    omega
  · rw [hr]
    omega

/-- The last step of a longer way starts on the board. -/
theorem StepsAway.last (hd : d ∈ dirs) (h : StepsAway d (k + 1) s u) :
    ∃ t, StepsAway d k s t ∧ IsStep d.1 d.2 t u := by
  induction k generalizing s with
  | zero => exact ⟨s, ⟨by simp, by simp⟩, stepsAway_one.mp h⟩
  | succ k ih =>
    obtain ⟨s', hs', h'⟩ := h.first hd
    obtain ⟨t, ht, hu⟩ := ih h'
    exact ⟨t, ht.cons hs', hu⟩

/-- A walk of `k` steps is one past free squares. -/
theorem rayWalk_iff_free (hd : d ∈ dirs) : RayWalk d occ s t ↔
    ∃ k, 1 ≤ k ∧ StepsAway d k s t ∧ ∀ j u, 1 ≤ j → j < k → StepsAway d j s u → ¬ occ u := by
  constructor
  · intro h
    induction h with
    | first step => exact ⟨1, le_rfl, stepsAway_one.mpr step, fun j u h1 h2 => by omega⟩
    | next walk free step ih =>
      obtain ⟨k, hk, ht, hfree⟩ := ih
      refine ⟨k + 1, by omega, ht.snoc step, fun j u h1 h2 hu => ?_⟩
      rcases Nat.lt_or_ge j k with hlt | hge
      · exact hfree j u h1 hlt hu
      · obtain rfl : j = k := by omega
        rwa [hu.unique ht]
  · rintro ⟨k, hk, ht, hfree⟩
    -- the square before the last one is met too
    induction k generalizing t with
    | zero => omega
    | succ k ih =>
      rcases Nat.eq_zero_or_pos k with rfl | hpos
      · exact .first (stepsAway_one.mp ht)
      · obtain ⟨u, hu, hstep⟩ := ht.last hd
        have hwalk := ih hpos hu fun j v h1 h2 => hfree j v h1 (by omega)
        exact .next hwalk (hfree k u hpos (Nat.lt_succ_self k) hu) hstep

/-- A walk meets the squares of the ray to which the way is clear. -/
theorem rayWalk_iff (hd : d ∈ dirs) :
    RayWalk d occ s t ↔ (∃ k, 1 ≤ k ∧ StepsAway d k s t) ∧ Clear occ s t := by
  rw [rayWalk_iff_free hd]
  constructor
  · rintro ⟨k, hk, ht, hfree⟩
    refine ⟨⟨k, hk, ht⟩, fun u hu => ?_⟩
    obtain ⟨j, h1, h2, hj⟩ := (stepsAway_lt_iff_between hd hk ht).mpr hu
    exact hfree j u h1 h2 hj
  · rintro ⟨⟨k, hk, ht⟩, hclear⟩
    refine ⟨k, hk, ht, fun j u h1 h2 hu => hclear u ?_⟩
    exact (stepsAway_lt_iff_between hd hk ht).mp ⟨j, h1, h2, hu⟩

/-- The rays of a lance, and of a rook on its file and on its rank, and of a bishop. -/
def lanceRays (c : Color) : List (Int × Int) := [(0, c.forward)]

def fileRays : List (Int × Int) := [(0, -1), (0, 1)]

def rankRays : List (Int × Int) := [(-1, 0), (1, 0)]

def bishopRays : List (Int × Int) := [(-1, -1), (-1, 1), (1, -1), (1, 1)]

theorem exists_rayWalk_iff {rays : List (Int × Int)} (h : rays ⊆ dirs) :
    (∃ d ∈ rays, RayWalk d occ s t) ↔
      (∃ d ∈ rays, ∃ k, 1 ≤ k ∧ StepsAway d k s t) ∧ Clear occ s t := by
  constructor
  · rintro ⟨d, hd, hw⟩
    obtain ⟨hk, hclear⟩ := (rayWalk_iff (h hd)).mp hw
    exact ⟨⟨d, hd, hk⟩, hclear⟩
  · rintro ⟨⟨d, hd, hk⟩, hclear⟩
    exact ⟨d, hd, (rayWalk_iff (h hd)).mpr ⟨hk, hclear⟩⟩

theorem exists_lanceRays {c : Color} : (∃ d ∈ lanceRays c, ∃ k, 1 ≤ k ∧ StepsAway d k s t) ↔
    Reach .lance c s t := by
  rw [reach_iff]
  simp only [lanceRays, List.mem_singleton, exists_eq_left, StepsAway, IsStep]
  cases c with
  | black =>
    simp only [Color.forward]
    constructor
    · rintro ⟨k, h1, h2, h3⟩
      omega
    · rintro ⟨h1, h2⟩
      exact ⟨s.rank - t.rank, by omega, by omega, by omega⟩
  | white =>
    simp only [Color.forward]
    constructor
    · rintro ⟨k, h1, h2, h3⟩
      omega
    · rintro ⟨h1, h2⟩
      exact ⟨t.rank - s.rank, by omega, by omega, by omega⟩

theorem exists_fileRays : (∃ d ∈ fileRays, ∃ k, 1 ≤ k ∧ StepsAway d k s t) ↔
    Aligned .file s t := by
  rw [Aligned, Square.ne_iff_coord]
  simp only [fileRays, List.mem_cons, List.not_mem_nil, or_false, exists_eq_or_imp,
    exists_eq_left, StepsAway, IsStep, LineKind.inv]
  constructor
  · rintro (⟨k, h1, h2, h3⟩ | ⟨k, h1, h2, h3⟩) <;> omega
  · rintro ⟨hne, hf⟩
    rcases Nat.lt_or_ge s.rank t.rank with h | h
    · exact Or.inr ⟨t.rank - s.rank, by omega, by omega, by omega⟩
    · exact Or.inl ⟨s.rank - t.rank, by omega, by omega, by omega⟩

theorem exists_rankRays : (∃ d ∈ rankRays, ∃ k, 1 ≤ k ∧ StepsAway d k s t) ↔
    Aligned .rank s t := by
  rw [Aligned, Square.ne_iff_coord]
  simp only [rankRays, List.mem_cons, List.not_mem_nil, or_false, exists_eq_or_imp,
    exists_eq_left, StepsAway, IsStep, LineKind.inv]
  constructor
  · rintro (⟨k, h1, h2, h3⟩ | ⟨k, h1, h2, h3⟩) <;> omega
  · rintro ⟨hne, hr⟩
    rcases Nat.lt_or_ge s.file t.file with h | h
    · exact Or.inr ⟨t.file - s.file, by omega, by omega, by omega⟩
    · exact Or.inl ⟨s.file - t.file, by omega, by omega, by omega⟩

theorem exists_bishopRays {c : Color} : (∃ d ∈ bishopRays, ∃ k, 1 ≤ k ∧ StepsAway d k s t) ↔
    Reach .bishop c s t := by
  rw [reach_iff]
  simp only [bishopRays, List.mem_cons, List.not_mem_nil, or_false, exists_eq_or_imp,
    exists_eq_left, StepsAway, IsStep]
  constructor
  · rintro (⟨k, h1, h2, h3⟩ | ⟨k, h1, h2, h3⟩ | ⟨k, h1, h2, h3⟩ | ⟨k, h1, h2, h3⟩) <;> omega
  · rintro ⟨hne, hd⟩
    rcases Nat.lt_or_ge s.file t.file with h | h <;> rcases Nat.lt_or_ge s.rank t.rank with h' | h'
    · exact Or.inr (Or.inr (Or.inr ⟨t.file - s.file, by omega, by omega, by omega⟩))
    · exact Or.inr (Or.inr (Or.inl ⟨t.file - s.file, by omega, by omega, by omega⟩))
    · exact Or.inr (Or.inl ⟨s.file - t.file, by omega, by omega, by omega⟩)
    · exact Or.inl ⟨s.file - t.file, by omega, by omega, by omega⟩

end Walk

/-- On every occupancy the slider functions return the squares of the walks along the man's rays. -/
theorem slider_effects_iff_rayWalk (s t : Square) (occ : Bitboard) :
    (∀ c, t ∈ lanceEffect c s occ ↔ ∃ d ∈ lanceRays c, RayWalk d (· ∈ occ) s t) ∧
      (t ∈ rookFileEffect s occ ↔ ∃ d ∈ fileRays, RayWalk d (· ∈ occ) s t) ∧
      (t ∈ rookRankEffect s occ ↔ ∃ d ∈ rankRays, RayWalk d (· ∈ occ) s t) ∧
      (t ∈ rookEffect s occ ↔ ∃ d ∈ fileRays ++ rankRays, RayWalk d (· ∈ occ) s t) ∧
      (t ∈ bishopEffect s occ ↔ ∃ d ∈ bishopRays, RayWalk d (· ∈ occ) s t) := by
  have hfile : t ∈ rookFileEffect s occ ↔ ∃ d ∈ fileRays, RayWalk d (· ∈ occ) s t := by
    rw [mem_rookFileEffect, exists_rayWalk_iff (by decide), exists_fileRays]
  have hrank : t ∈ rookRankEffect s occ ↔ ∃ d ∈ rankRays, RayWalk d (· ∈ occ) s t := by
    rw [mem_rookRankEffect, exists_rayWalk_iff (by decide), exists_rankRays]
  refine ⟨fun c => ?_, hfile, hrank, ?_, ?_⟩
  · have hdirs : lanceRays c ⊆ dirs := by cases c <;> decide
    rw [mem_lanceEffect, exists_rayWalk_iff hdirs, exists_lanceRays]
  · rw [rookEffect, Bitboard.mem_or, hfile, hrank]
    simp only [List.mem_append, or_and_right, exists_or]
  · rw [mem_bishopEffect .black, exists_rayWalk_iff (by decide), exists_bishopRays (c := .black)]

end Shogi
