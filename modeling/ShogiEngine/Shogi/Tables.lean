import Mathlib
import ShogiEngine.Shogi.Bitboard
import ShogiEngine.Rules.Geometry

/-!
# Step, ray and line tables

The tables of `ShogiTables` that `shogi/bitboard.cc` fills once at start-up, as functions of
their indices. Each table is followed by the geometric meaning of its entries, which is all
that later modules use.
-/

namespace Shogi

/-! ## Squares, files and ranks -/

/-- `SquareBB`. -/
def squareBB (s : Square) : Bitboard := .fromSquare s

@[simp] theorem mem_squareBB {s t : Square} : t ∈ squareBB s ↔ t = s := Bitboard.mem_fromSquare

/-- The squares that a filling loop over the whole board sets. -/
def collect (p : Square → Bool) : Bitboard :=
  (List.finRange 81).foldl (fun bb s => if p s then bb.set s else bb) .zero

theorem mem_foldl_set_if {p : Square → Bool} {l : List Square} {bb : Bitboard} {t : Square} :
    t ∈ l.foldl (fun bb s => if p s then bb.set s else bb) bb ↔ t ∈ bb ∨ t ∈ l ∧ p t = true := by
  induction l generalizing bb with
  | nil => simp
  | cons s l ih =>
    rw [List.foldl_cons, ih]
    by_cases hp : p s = true
    · simp only [hp, if_true, Bitboard.mem_set, List.mem_cons]
      constructor
      · rintro ((h | rfl) | h)
        · exact Or.inl h
        · exact Or.inr ⟨Or.inl rfl, hp⟩
        · exact Or.inr ⟨Or.inr h.1, h.2⟩
      · rintro (h | ⟨rfl | h, hp'⟩)
        · exact Or.inl (Or.inl h)
        · exact Or.inl (Or.inr rfl)
        · exact Or.inr ⟨h, hp'⟩
    · simp only [hp, List.mem_cons]
      constructor
      · rintro (h | h)
        · exact Or.inl h
        · exact Or.inr ⟨Or.inr h.1, h.2⟩
      · rintro (h | ⟨rfl | h, hp'⟩)
        · exact Or.inl h
        · exact absurd hp' hp
        · exact Or.inr ⟨h, hp'⟩

@[simp] theorem mem_collect {p : Square → Bool} {t : Square} : t ∈ collect p ↔ p t = true := by
  simp [collect, mem_foldl_set_if]

/-- `FileBB`. -/
def fileBB (f : Nat) : Bitboard := collect fun s => s.file == f

/-- `RankBB`. -/
def rankBB (r : Nat) : Bitboard := collect fun s => s.rank == r

@[simp] theorem mem_fileBB {f : Nat} {t : Square} : t ∈ fileBB f ↔ t.file = f := by
  simp [fileBB]

@[simp] theorem mem_rankBB {r : Nat} {t : Square} : t ∈ rankBB r ↔ t.rank = r := by
  simp [rankBB]

/-- `PromotionZoneBB`. -/
def promotionZoneBB : Color → Bitboard
  | .black => rankBB 0 ||| rankBB 1 ||| rankBB 2
  | .white => rankBB 6 ||| rankBB 7 ||| rankBB 8

@[simp] theorem mem_promotionZoneBB {c : Color} {t : Square} :
    t ∈ promotionZoneBB c ↔ t.inPromotionZone c = true := by
  have := t.rank_lt
  cases c <;>
    simp only [promotionZoneBB, Bitboard.mem_or, mem_rankBB, Square.inPromotionZone,
      decide_eq_true_eq] <;> omega

/-! ## Steps -/

/-- `MakeStepBB`: the on-board squares at the given distances. -/
def makeStepBB (s : Square) (deltas : List (Int × Int)) : Bitboard :=
  deltas.foldl (fun bb d =>
    let nf := (s.file : Int) + d.1
    let nr := (s.rank : Int) + d.2
    if h : 0 ≤ nf ∧ nf < 9 ∧ 0 ≤ nr ∧ nr < 9 then
      bb.set (Square.ofCoord nf.toNat nr.toNat (by omega) (by omega))
    else bb) .zero

/-- The square at a distance, when it is on the board. -/
theorem isStep_iff_ofCoord {x y : Int} {s t : Square} :
    IsStep x y s t ↔ ∃ h : 0 ≤ (s.file : Int) + x ∧ (s.file : Int) + x < 9 ∧
        0 ≤ (s.rank : Int) + y ∧ (s.rank : Int) + y < 9,
      t = Square.ofCoord ((s.file : Int) + x).toNat ((s.rank : Int) + y).toNat
        (by omega) (by omega) := by
  constructor
  · rintro ⟨hf, hr⟩
    have h1 := t.file_lt
    have h2 := t.rank_lt
    refine ⟨by omega, Square.ext_coord ?_ ?_⟩
    · rw [Square.file_ofCoord]
      omega
    · rw [Square.rank_ofCoord]
      omega
  · rintro ⟨h, rfl⟩
    constructor
    · rw [Square.file_ofCoord]
      omega
    · rw [Square.rank_ofCoord]
      omega

theorem mem_makeStepBB {s t : Square} {deltas : List (Int × Int)} :
    t ∈ makeStepBB s deltas ↔ ∃ d ∈ deltas, IsStep d.1 d.2 s t := by
  have key : ∀ (l : List (Int × Int)) (bb : Bitboard),
      t ∈ l.foldl (fun bb d =>
        let nf := (s.file : Int) + d.1
        let nr := (s.rank : Int) + d.2
        if h : 0 ≤ nf ∧ nf < 9 ∧ 0 ≤ nr ∧ nr < 9 then
          bb.set (Square.ofCoord nf.toNat nr.toNat (by omega) (by omega))
        else bb) bb ↔ t ∈ bb ∨ ∃ d ∈ l, IsStep d.1 d.2 s t := by
    intro l
    induction l with
    | nil => simp
    | cons d l ih =>
      intro bb
      rw [List.foldl_cons, ih]
      have hstep := isStep_iff_ofCoord (x := d.1) (y := d.2) (s := s) (t := t)
      simp only [List.mem_cons, exists_eq_or_imp, hstep]
      split
      · rename_i h
        rw [Bitboard.mem_set, or_assoc]
        simp [h]
      · rename_i h
        simp [h]
  simpa [makeStepBB] using key deltas .zero

/-- `PawnEffectBB`. -/
def pawnEffectBB (s : Square) : Color → Bitboard
  | .black => makeStepBB s [(0, -1)]
  | .white => makeStepBB s [(0, 1)]

/-- `KnightEffectBB`. -/
def knightEffectBB (s : Square) : Color → Bitboard
  | .black => makeStepBB s [(-1, -2), (1, -2)]
  | .white => makeStepBB s [(-1, 2), (1, 2)]

/-- `SilverEffectBB`. -/
def silverEffectBB (s : Square) : Color → Bitboard
  | .black => makeStepBB s [(0, -1), (-1, -1), (1, -1), (-1, 1), (1, 1)]
  | .white => makeStepBB s [(0, 1), (-1, 1), (1, 1), (-1, -1), (1, -1)]

/-- `GoldEffectBB`. -/
def goldEffectBB (s : Square) : Color → Bitboard
  | .black => makeStepBB s [(0, -1), (-1, -1), (1, -1), (-1, 0), (1, 0), (0, 1)]
  | .white => makeStepBB s [(0, 1), (-1, 1), (1, 1), (-1, 0), (1, 0), (0, -1)]

/-- `KingEffectBB`. -/
def kingEffectBB (s : Square) : Bitboard :=
  makeStepBB s [(-1, -1), (-1, 0), (-1, 1), (0, -1), (0, 1), (1, -1), (1, 0), (1, 1)]

/-- `HorseStepBB`. -/
def horseStepBB (s : Square) : Bitboard := makeStepBB s [(0, -1), (0, 1), (-1, 0), (1, 0)]

/-- `DragonStepBB`. -/
def dragonStepBB (s : Square) : Bitboard := makeStepBB s [(-1, -1), (-1, 1), (1, -1), (1, 1)]

section StepMembership

variable {s t : Square} {c : Color}

@[simp] theorem mem_pawnEffectBB : t ∈ pawnEffectBB s c ↔ Reach .pawn c s t := by
  rw [reach_iff]
  cases c <;> simp only [pawnEffectBB, mem_makeStepBB, List.mem_cons, List.not_mem_nil, or_false,
    exists_eq_left, IsStep] <;> omega

@[simp] theorem mem_knightEffectBB : t ∈ knightEffectBB s c ↔ Reach .knight c s t := by
  rw [reach_iff]
  cases c <;> simp only [knightEffectBB, mem_makeStepBB, List.mem_cons, List.not_mem_nil, or_false,
    exists_eq_or_imp, exists_eq_left, IsStep] <;> omega

@[simp] theorem mem_silverEffectBB : t ∈ silverEffectBB s c ↔ Reach .silver c s t := by
  rw [reach_iff]
  cases c <;> simp only [silverEffectBB, mem_makeStepBB, List.mem_cons, List.not_mem_nil, or_false,
    exists_eq_or_imp, exists_eq_left, IsStep] <;> omega

@[simp] theorem mem_goldEffectBB : t ∈ goldEffectBB s c ↔ Reach .gold c s t := by
  rw [reach_iff]
  cases c <;> simp only [goldEffectBB, mem_makeStepBB, List.mem_cons, List.not_mem_nil, or_false,
    exists_eq_or_imp, exists_eq_left, IsStep] <;> omega

theorem mem_kingEffectBB (c : Color) : t ∈ kingEffectBB s ↔ Reach .king c s t := by
  rw [reach_iff]
  simp only [kingEffectBB, mem_makeStepBB, List.mem_cons, List.not_mem_nil, or_false,
    exists_eq_or_imp, exists_eq_left, IsStep]
  omega

theorem mem_horseStepBB : t ∈ horseStepBB s ↔
    t.file = s.file ∧ (t.rank + 1 = s.rank ∨ t.rank = s.rank + 1) ∨
      t.rank = s.rank ∧ (t.file + 1 = s.file ∨ t.file = s.file + 1) := by
  simp only [horseStepBB, mem_makeStepBB, List.mem_cons, List.not_mem_nil, or_false,
    exists_eq_or_imp, exists_eq_left, IsStep]
  omega

theorem mem_dragonStepBB : t ∈ dragonStepBB s ↔
    (t.file + 1 = s.file ∨ t.file = s.file + 1) ∧ (t.rank + 1 = s.rank ∨ t.rank = s.rank + 1) := by
  simp only [dragonStepBB, mem_makeStepBB, List.mem_cons, List.not_mem_nil, or_false,
    exists_eq_or_imp, exists_eq_left, IsStep]
  omega

end StepMembership

/-- `LanceMaskBB`: the squares of the file ahead. -/
def lanceMaskBB (s : Square) : Color → Bitboard
  | .black => collect fun t => t.file == s.file && t.rank < s.rank
  | .white => collect fun t => t.file == s.file && s.rank < t.rank

@[simp] theorem mem_lanceMaskBB {s t : Square} {c : Color} :
    t ∈ lanceMaskBB s c ↔ Reach .lance c s t := by
  rw [reach_iff]
  cases c <;> simp [lanceMaskBB]

/-! ## Rays -/

/-- The squares met when walking from `s` in steps of `(df, dr)`. The loop of the source ends
when it leaves the board, at the latest after eight steps. -/
def walk (df dr : Int) : Nat → Square → List Square
  | 0, _ => []
  | n + 1, s =>
    if h : 0 ≤ (s.file : Int) + df ∧ (s.file : Int) + df < 9 ∧
        0 ≤ (s.rank : Int) + dr ∧ (s.rank : Int) + dr < 9 then
      let t := Square.ofCoord ((s.file : Int) + df).toNat ((s.rank : Int) + dr).toNat
        (by omega) (by omega)
      t :: walk df dr n t
    else []

/-- `MakeRayBB`. -/
def makeRayBB (s : Square) (df dr : Int) : Bitboard := (walk df dr 9 s).foldl .set .zero

/-- The eight directions in the order of the source. -/
def dirs : List (Int × Int) :=
  [(0, -1), (0, 1), (-1, 0), (1, 0), (-1, -1), (-1, 1), (1, -1), (1, 1)]

/-- A direction moves each coordinate by at most one. -/
theorem abs_le_of_mem_dirs {d : Int × Int} (h : d ∈ dirs) :
    (d.1 = -1 ∨ d.1 = 0 ∨ d.1 = 1) ∧ (d.2 = -1 ∨ d.2 = 0 ∨ d.2 = 1) ∧ (d.1 ≠ 0 ∨ d.2 ≠ 0) := by
  simp only [dirs, List.mem_cons, List.not_mem_nil, or_false] at h
  rcases h with rfl | rfl | rfl | rfl | rfl | rfl | rfl | rfl <;> decide

/-- `t` is `k` steps of direction `d` away from `s`. -/
def StepsAway (d : Int × Int) (k : Nat) (s t : Square) : Prop := IsStep (k * d.1) (k * d.2) s t

theorem stepsAway_one {d : Int × Int} {s t : Square} :
    StepsAway d 1 s t ↔ IsStep d.1 d.2 s t := by
  simp [StepsAway]

/-- The first step of a longer way stays on the board. -/
theorem StepsAway.first {d : Int × Int} (hd : d ∈ dirs) {k : Nat} {s t : Square}
    (h : StepsAway d (k + 1) s t) : ∃ s', IsStep d.1 d.2 s s' ∧ StepsAway d k s' t := by
  obtain ⟨hf, hr⟩ := h
  have h1 := s.file_lt
  have h2 := s.rank_lt
  have h3 := t.file_lt
  have h4 := t.rank_lt
  have hkf : ((k + 1 : Nat) : Int) * d.1 = k * d.1 + d.1 := by push_cast; ring
  have hkr : ((k + 1 : Nat) : Int) * d.2 = k * d.2 + d.2 := by push_cast; ring
  rw [hkf] at hf
  rw [hkr] at hr
  obtain ⟨hd1, hd2, -⟩ := abs_le_of_mem_dirs hd
  have hrange : 0 ≤ (s.file : Int) + d.1 ∧ (s.file : Int) + d.1 < 9 ∧
      0 ≤ (s.rank : Int) + d.2 ∧ (s.rank : Int) + d.2 < 9 := by
    refine ⟨?_, ?_, ?_, ?_⟩
    · rcases hd1 with e | e | e <;> rw [e] at hf ⊢ <;> omega
    · rcases hd1 with e | e | e <;> rw [e] at hf ⊢ <;> omega
    · rcases hd2 with e | e | e <;> rw [e] at hr ⊢ <;> omega
    · rcases hd2 with e | e | e <;> rw [e] at hr ⊢ <;> omega
  refine ⟨_, isStep_iff_ofCoord.mpr ⟨hrange, rfl⟩, ?_⟩
  constructor
  · rw [Square.file_ofCoord]
    omega
  · rw [Square.rank_ofCoord]
    omega

theorem StepsAway.cons {d : Int × Int} {k : Nat} {s s' t : Square} (h : IsStep d.1 d.2 s s')
    (ht : StepsAway d k s' t) : StepsAway d (k + 1) s t := by
  obtain ⟨h1, h2⟩ := h
  obtain ⟨h3, h4⟩ := ht
  have hkf : ((k + 1 : Nat) : Int) * d.1 = k * d.1 + d.1 := by push_cast; ring
  have hkr : ((k + 1 : Nat) : Int) * d.2 = k * d.2 + d.2 := by push_cast; ring
  constructor
  · rw [hkf]
    omega
  · rw [hkr]
    omega

/-- The number of steps is the largest coordinate distance, so it is determined and below 9. -/
theorem StepsAway.count_eq {d : Int × Int} (hd : d ∈ dirs) {k : Nat} {s t : Square}
    (h : StepsAway d k s t) :
    k = max ((t.file : Int) - s.file).natAbs ((t.rank : Int) - s.rank).natAbs := by
  obtain ⟨hf, hr⟩ := h
  obtain ⟨hd1, hd2, hne⟩ := abs_le_of_mem_dirs hd
  rcases hd1 with e | e | e <;> rcases hd2 with e' | e' | e' <;> rw [e] at hf hne <;>
    rw [e'] at hr hne <;> omega

theorem StepsAway.lt_nine {d : Int × Int} (hd : d ∈ dirs) {k : Nat} {s t : Square}
    (h : StepsAway d k s t) : k < 9 := by
  have hk := h.count_eq hd
  have h1 := s.file_lt
  have h2 := s.rank_lt
  have h3 := t.file_lt
  have h4 := t.rank_lt
  omega

theorem mem_walk {d : Int × Int} (hd : d ∈ dirs) {n : Nat} {s t : Square} :
    t ∈ walk d.1 d.2 n s ↔ ∃ k, 1 ≤ k ∧ k ≤ n ∧ StepsAway d k s t := by
  induction n generalizing s with
  | zero =>
    simp only [walk, List.not_mem_nil, false_iff]
    rintro ⟨k, h1, h2, -⟩
    omega
  | succ n ih =>
    rw [walk]
    split
    · rename_i h
      have hstep := isStep_iff_ofCoord.mpr ⟨h, rfl⟩
      rw [List.mem_cons, ih]
      constructor
      · rintro (rfl | ⟨k, h1, h2, hk⟩)
        · exact ⟨1, le_rfl, by omega, stepsAway_one.mpr hstep⟩
        · exact ⟨k + 1, by omega, by omega, hk.cons hstep⟩
      · rintro ⟨k, h1, h2, hk⟩
        obtain ⟨k, rfl⟩ : ∃ j, k = j + 1 := ⟨k - 1, by omega⟩
        obtain ⟨s', hs', ht⟩ := hk.first hd
        obtain ⟨_, rfl⟩ := isStep_iff_ofCoord.mp hs'
        rcases Nat.eq_zero_or_pos k with rfl | hpos
        · left
          obtain ⟨h3, h4⟩ := ht
          simp only [Nat.cast_zero, zero_mul, add_zero] at h3 h4
          exact Square.ext_coord (by omega) (by omega)
        · exact Or.inr ⟨k, hpos, by omega, ht⟩
    · rename_i h
      simp only [List.not_mem_nil, false_iff]
      rintro ⟨k, h1, h2, hk⟩
      obtain ⟨k, rfl⟩ : ∃ j, k = j + 1 := ⟨k - 1, by omega⟩
      obtain ⟨s', hs', -⟩ := hk.first hd
      exact h (isStep_iff_ofCoord.mp hs').1

theorem mem_foldl_set {l : List Square} {bb : Bitboard} {t : Square} :
    t ∈ l.foldl .set bb ↔ t ∈ bb ∨ t ∈ l := by
  induction l generalizing bb with
  | nil => simp
  | cons s l ih => simp [ih, or_assoc]

theorem mem_makeRayBB {d : Int × Int} (hd : d ∈ dirs) {s t : Square} :
    t ∈ makeRayBB s d.1 d.2 ↔ ∃ k, 1 ≤ k ∧ StepsAway d k s t := by
  rw [makeRayBB, mem_foldl_set, mem_walk hd]
  constructor
  · rintro (h | ⟨k, h1, -, hk⟩)
    · exact absurd h Bitboard.not_mem_zero
    · exact ⟨k, h1, hk⟩
  · rintro ⟨k, h1, hk⟩
    have := hk.lt_nine hd
    exact Or.inr ⟨k, h1, by omega, hk⟩

/-! ## Between and line tables -/

/-- One direction of `InitBetweenAndLine`: walk from `s`, keeping the squares met so far in
`ray`, and read `ray` when the walk reaches `t`. -/
def rayUpTo (df dr : Int) : Nat → Square → Bitboard → Square → Option Bitboard
  | 0, _, _, _ => none
  | n + 1, s, ray, t =>
    if h : 0 ≤ (s.file : Int) + df ∧ (s.file : Int) + df < 9 ∧
        0 ≤ (s.rank : Int) + dr ∧ (s.rank : Int) + dr < 9 then
      let u := Square.ofCoord ((s.file : Int) + df).toNat ((s.rank : Int) + dr).toNat
        (by omega) (by omega)
      if u = t then some ray else rayUpTo df dr n u (ray.set u) t
    else none

/-- `BetweenBB`; a later direction overwrites an earlier one. -/
def betweenBB (s t : Square) : Bitboard :=
  dirs.foldl (fun entry d => (rayUpTo d.1 d.2 9 s .zero t).getD entry) .zero

/-- `LineBB`: the ray through `t`, its opposite, and `s` itself. -/
def lineBB (s t : Square) : Bitboard :=
  dirs.foldl (fun entry d =>
    (if t ∈ walk d.1 d.2 9 s then
      some ((makeRayBB s d.1 d.2 ||| makeRayBB s (-d.1) (-d.2)).set s)
    else none).getD entry) .zero

/-- What `rayUpTo` reads on the way to a square of the ray. -/
theorem rayUpTo_spec {d : Int × Int} (hd : d ∈ dirs) {n k : Nat} {s t : Square} {w : Bitboard}
    (h1 : 1 ≤ k) (h2 : k ≤ n) (hk : StepsAway d k s t) :
    ∃ r, rayUpTo d.1 d.2 n s w t = some r ∧
      ∀ u, u ∈ r ↔ u ∈ w ∨ ∃ j, 1 ≤ j ∧ j < k ∧ StepsAway d j s u := by
  induction n generalizing s k w with
  | zero => omega
  | succ n ih =>
    obtain ⟨k, rfl⟩ : ∃ j, k = j + 1 := ⟨k - 1, by omega⟩
    obtain ⟨s', hs', ht⟩ := hk.first hd
    obtain ⟨hrange, he⟩ := isStep_iff_ofCoord.mp hs'
    have hback : ∀ {j u}, StepsAway d (j + 1) s u → StepsAway d j s' u := by
      intro j u hu
      obtain ⟨s'', hs'', hu'⟩ := hu.first hd
      obtain ⟨_, he'⟩ := isStep_iff_ofCoord.mp hs''
      rwa [he', ← he] at hu'
    rw [rayUpTo, dif_pos hrange, ← he]
    by_cases hst : s' = t
    · have hk0 : k = 0 := by
        have := ht.count_eq hd
        subst hst
        omega
      refine ⟨w, by simp [hst], fun u => ?_⟩
      subst hk0
      constructor
      · exact Or.inl
      · rintro (h | ⟨j, h3, h4, -⟩)
        · exact h
        · omega
    · have hk0 : 1 ≤ k := by
        rcases Nat.eq_zero_or_pos k with rfl | h
        · obtain ⟨h3, h4⟩ := ht
          simp only [Nat.cast_zero, zero_mul, add_zero] at h3 h4
          exact absurd (Square.ext_coord (by omega) (by omega)) hst
        · exact h
      obtain ⟨r, hr, hmem⟩ := ih (w := w.set s') hk0 (by omega) ht
      refine ⟨r, by simpa [hst] using hr, fun u => ?_⟩
      rw [hmem, Bitboard.mem_set, or_assoc]
      refine or_congr_right ⟨?_, ?_⟩
      · rintro (rfl | ⟨j, h3, h4, hj⟩)
        · exact ⟨1, le_rfl, by omega, stepsAway_one.mpr hs'⟩
        · exact ⟨j + 1, by omega, by omega, hj.cons hs'⟩
      · rintro ⟨j, h3, h4, hj⟩
        obtain ⟨j, rfl⟩ : ∃ i, j = i + 1 := ⟨j - 1, by omega⟩
        rcases Nat.eq_zero_or_pos j with rfl | hpos
        · left
          obtain ⟨_, he'⟩ := isStep_iff_ofCoord.mp (stepsAway_one.mp hj)
          rw [he', he]
        · exact Or.inr ⟨j, hpos, by omega, hback hj⟩

/-- A square that is not on the ray is never read. -/
theorem rayUpTo_eq_none {d : Int × Int} {n : Nat} {s t : Square} {ray : Bitboard}
    (h : ∀ k, 1 ≤ k → ¬ StepsAway d k s t) : rayUpTo d.1 d.2 n s ray t = none := by
  induction n generalizing s ray with
  | zero => rfl
  | succ n ih =>
    rw [rayUpTo]
    split
    · rename_i hrange
      have hstep := isStep_iff_ofCoord.mpr ⟨hrange, rfl⟩
      have hne := h 1 le_rfl
      rw [stepsAway_one] at hne
      rw [if_neg fun e => hne (by rw [← e]; exact hstep)]
      exact ih fun k hk hs => h (k + 1) (by omega) (hs.cons hstep)
    · rfl

/-- The squares of a ray before one of its squares are the squares between. -/
theorem stepsAway_lt_iff_between {d : Int × Int} (hd : d ∈ dirs) {k : Nat} {s t u : Square}
    (h1 : 1 ≤ k) (hk : StepsAway d k s t) :
    (∃ j, 1 ≤ j ∧ j < k ∧ StepsAway d j s u) ↔ Between s u t := by
  have hbound := hk.count_eq hd
  obtain ⟨hf, hr⟩ := hk
  rw [between_iff]
  simp only [dirs, List.mem_cons, List.not_mem_nil, or_false] at hd
  constructor
  · rintro ⟨j, h2, h3, hf', hr'⟩
    rcases hd with rfl | rfl | rfl | rfl | rfl | rfl | rfl | rfl <;>
      simp only [mul_zero, mul_one, mul_neg] at hf hr hf' hr' <;> omega
  · intro hb
    refine ⟨max ((u.file : Int) - s.file).natAbs ((u.rank : Int) - s.rank).natAbs, ?_, ?_, ?_, ?_⟩
    all_goals
      rcases hd with rfl | rfl | rfl | rfl | rfl | rfl | rfl | rfl <;>
        simp only [mul_zero, mul_one, mul_neg] at hf hr ⊢ <;> omega

/-- Two squares of a line lie on a ray in one of the eight directions. -/
theorem exists_stepsAway_of_onLine {s t u : Square} (h : OnLine s t u) :
    ∃ d ∈ dirs, ∃ k, 1 ≤ k ∧ StepsAway d k s t := by
  rw [onLine_iff, Square.ne_iff_coord] at h
  obtain ⟨hne, h⟩ := h
  have key : ∀ d ∈ dirs, StepsAway d
      (max ((t.file : Int) - s.file).natAbs ((t.rank : Int) - s.rank).natAbs) s t →
      ∃ d ∈ dirs, ∃ k, 1 ≤ k ∧ StepsAway d k s t := by
    intro d hd hs
    exact ⟨d, hd, _, by omega, hs⟩
  simp only [StepsAway, IsStep] at key
  rcases Nat.lt_trichotomy s.file t.file with hf | hf | hf <;>
    rcases Nat.lt_trichotomy s.rank t.rank with hr | hr | hr
  · exact key (1, 1) (by decide) ⟨by omega, by omega⟩
  · exact key (1, 0) (by decide) ⟨by omega, by omega⟩
  · exact key (1, -1) (by decide) ⟨by omega, by omega⟩
  · exact key (0, 1) (by decide) ⟨by omega, by omega⟩
  · omega
  · exact key (0, -1) (by decide) ⟨by omega, by omega⟩
  · exact key (-1, 1) (by decide) ⟨by omega, by omega⟩
  · exact key (-1, 0) (by decide) ⟨by omega, by omega⟩
  · exact key (-1, -1) (by decide) ⟨by omega, by omega⟩

/-- When every direction that writes an entry writes the same set, so does the whole loop. -/
theorem mem_foldl_getD {l : List (Int × Int)} {f : Int × Int → Option Bitboard} {P : Prop}
    {u : Square} (hf : ∀ d ∈ l, ∀ r, f d = some r → (u ∈ r ↔ P))
    (hit : ∃ d ∈ l, f d ≠ none) (entry : Bitboard) :
    u ∈ l.foldl (fun entry d => (f d).getD entry) entry ↔ P := by
  have key : ∀ (l : List (Int × Int)) (entry : Bitboard),
      (∀ d ∈ l, ∀ r, f d = some r → (u ∈ r ↔ P)) → (u ∈ entry ↔ P) →
      (u ∈ l.foldl (fun entry d => (f d).getD entry) entry ↔ P) := by
    intro l
    induction l with
    | nil => exact fun entry _ h => h
    | cons d l ih =>
      intro entry hf h
      refine ih _ (fun x hx => hf x (List.mem_cons_of_mem _ hx)) ?_
      change u ∈ (f d).getD entry ↔ P
      cases hd : f d with
      | none => exact h
      | some r => exact hf d (by simp) r hd
  induction l generalizing entry with
  | nil => simp at hit
  | cons d l ih =>
    have hl : ∀ x ∈ l, ∀ r, f x = some r → (u ∈ r ↔ P) :=
      fun x hx => hf x (List.mem_cons_of_mem _ hx)
    rw [List.foldl_cons]
    cases hd : f d with
    | none =>
      refine ih hl ?_ _
      obtain ⟨x, hx, hne⟩ := hit
      rcases List.mem_cons.mp hx with rfl | hx
      · exact absurd hd hne
      · exact ⟨x, hx, hne⟩
    | some r => exact key l r hl (hf d (by simp) r hd)

theorem foldl_getD_of_none {l : List (Int × Int)} {f : Int × Int → Option Bitboard}
    (hf : ∀ d ∈ l, f d = none) (entry : Bitboard) :
    l.foldl (fun entry d => (f d).getD entry) entry = entry := by
  induction l with
  | nil => rfl
  | cons d l ih =>
    rw [List.foldl_cons, hf d (by simp), Option.getD_none]
    exact ih fun x hx => hf x (List.mem_cons_of_mem _ hx)

theorem mem_betweenBB {s t u : Square} : u ∈ betweenBB s t ↔ Between s u t := by
  by_cases hray : ∃ d ∈ dirs, ∃ k, 1 ≤ k ∧ StepsAway d k s t
  · apply mem_foldl_getD
    · intro d hd r hr
      by_cases hk : ∃ k, 1 ≤ k ∧ StepsAway d k s t
      · obtain ⟨k, h1, hk⟩ := hk
        have := hk.lt_nine hd
        obtain ⟨r', hr', hmem⟩ := rayUpTo_spec hd (n := 9) (w := .zero) h1 (by omega) hk
        rw [Option.some.inj (hr.symm.trans hr'), hmem, stepsAway_lt_iff_between hd h1 hk]
        simp
      · rw [rayUpTo_eq_none fun k h1 hs => hk ⟨k, h1, hs⟩] at hr
        cases hr
    · obtain ⟨d, hd, k, h1, hk⟩ := hray
      have := hk.lt_nine hd
      obtain ⟨r', hr', -⟩ := rayUpTo_spec hd (n := 9) (w := .zero) h1 (by omega) hk
      exact ⟨d, hd, by simp [hr']⟩
  · have hno : betweenBB s t = .zero :=
      foldl_getD_of_none (fun d hd => rayUpTo_eq_none fun k h1 hk => hray ⟨d, hd, k, h1, hk⟩) _
    rw [hno]
    simp only [Bitboard.not_mem_zero, false_iff]
    exact fun hb => hray (exists_stepsAway_of_onLine hb.onLine)

/-- A ray, its opposite and its start form the line. -/
theorem onLine_iff_of_stepsAway {d : Int × Int} (hd : d ∈ dirs) {k : Nat} {s t u : Square}
    (h1 : 1 ≤ k) (hk : StepsAway d k s t) :
    OnLine s t u ↔ ((∃ j, 1 ≤ j ∧ StepsAway d j s u) ∨
      ∃ j, 1 ≤ j ∧ StepsAway (-d.1, -d.2) j s u) ∨ u = s := by
  obtain ⟨hf, hr⟩ := hk
  have hu : u = s ↔ u.file = s.file ∧ u.rank = s.rank :=
    ⟨fun h => by rw [h]; exact ⟨rfl, rfl⟩, fun h => Square.ext_coord h.1 h.2⟩
  rw [onLine_iff, Square.ne_iff_coord, hu]
  simp only [dirs, List.mem_cons, List.not_mem_nil, or_false] at hd
  simp only [StepsAway, IsStep]
  constructor
  · intro hl
    have hfwd : ∀ j : Nat, j = max ((u.file : Int) - s.file).natAbs ((u.rank : Int) - s.rank).natAbs →
        (u.file : Int) = s.file + j * d.1 ∧ (u.rank : Int) = s.rank + j * d.2 ∨
        (u.file : Int) = s.file + j * -d.1 ∧ (u.rank : Int) = s.rank + j * -d.2 := by
      intro j hj
      rcases hd with rfl | rfl | rfl | rfl | rfl | rfl | rfl | rfl <;>
        simp only [mul_zero, mul_one, mul_neg, neg_neg, neg_zero] at hf hr ⊢ <;> omega
    by_cases hj : 1 ≤ max ((u.file : Int) - s.file).natAbs ((u.rank : Int) - s.rank).natAbs
    · exact Or.inl ((hfwd _ rfl).imp (fun h => ⟨_, hj, h⟩) (fun h => ⟨_, hj, h⟩))
    · exact Or.inr ⟨by omega, by omega⟩
  · rintro ((⟨j, h2, hf', hr'⟩ | ⟨j, h2, hf', hr'⟩) | ⟨hf', hr'⟩) <;>
      rcases hd with rfl | rfl | rfl | rfl | rfl | rfl | rfl | rfl <;>
        simp only [mul_zero, mul_one, mul_neg, neg_neg, neg_zero] at hf hr hf' hr' <;> omega

theorem neg_mem_dirs {d : Int × Int} (hd : d ∈ dirs) : (-d.1, -d.2) ∈ dirs := by
  simp only [dirs, List.mem_cons, List.not_mem_nil, or_false] at hd
  rcases hd with rfl | rfl | rfl | rfl | rfl | rfl | rfl | rfl <;> decide

theorem mem_lineBB {s t u : Square} : u ∈ lineBB s t ↔ OnLine s t u := by
  have hwalk : ∀ {d}, d ∈ dirs → (t ∈ walk d.1 d.2 9 s ↔ ∃ k, 1 ≤ k ∧ StepsAway d k s t) := by
    intro d hd
    rw [← mem_makeRayBB hd, makeRayBB, mem_foldl_set]
    simp
  by_cases hray : ∃ d ∈ dirs, ∃ k, 1 ≤ k ∧ StepsAway d k s t
  · apply mem_foldl_getD
    · intro d hd r hr
      split at hr
      · rename_i hw
        obtain ⟨k, h1, hk⟩ := (hwalk hd).mp hw
        have hneg := mem_makeRayBB (neg_mem_dirs hd) (s := s) (t := u)
        rw [← Option.some.inj hr, Bitboard.mem_set, Bitboard.mem_or, mem_makeRayBB hd, hneg,
          onLine_iff_of_stepsAway hd h1 hk]
      · cases hr
    · obtain ⟨d, hd, hk⟩ := hray
      exact ⟨d, hd, by simp [(hwalk hd).mpr hk]⟩
  · have hno : lineBB s t = .zero :=
      foldl_getD_of_none (fun d hd => if_neg fun hw => hray ⟨d, hd, (hwalk hd).mp hw⟩) _
    rw [hno]
    simp only [Bitboard.not_mem_zero, false_iff]
    exact fun hl => hray (exists_stepsAway_of_onLine hl)

end Shogi
