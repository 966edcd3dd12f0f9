import ShogiEngine.Rules.Geometry

/-!
# Reach by offsets

What a black man can do on an empty board, as a list of offsets from its square.

## Main definitions

- `PieceType.offsets`: the offsets of a man
- `landings`: where they lead from a square

## Main results

- `mem_landings`, `nodup_landings`: the squares that the man reaches, each once
-/

namespace Shogi

namespace PieceType

/-- The directions in which a man slides, as (files, ranks forward). -/
def slides : PieceType → List (Int × Int)
  | lance => [(0, 1)]
  | bishop | horse => [(1, 1), (1, -1), (-1, 1), (-1, -1)]
  | rook | dragon => [(1, 0), (-1, 0), (0, 1), (0, -1)]
  | _ => []

/-- `k` steps in one direction. -/
def along (d : Int × Int) (k : Nat) : Int × Int := (d.1 * k, d.2 * k)

/-- All that a man can do on an empty board, as (files, ranks forward). -/
def offsets (pt : PieceType) : List (Int × Int) :=
  pt.steps ++ pt.slides.flatMap fun d => (List.range' 1 8).map (along d)

theorem nodup_offsets (pt : PieceType) : pt.offsets.Nodup := by
  cases pt <;> decide +kernel

end PieceType

/-- A file or a rank of the board. -/
def onBoard : Int → Bool
  | .ofNat n => n.blt 9
  | .negSucc _ => false

theorem onBoard_iff {x : Int} : onBoard x = true ↔ 0 ≤ x ∧ x < 9 := by
  cases x with
  | ofNat n =>
    rw [onBoard, Nat.blt_eq, Int.ofNat_eq_natCast]
    omega
  | negSucc n => exact iff_of_false Bool.false_ne_true fun h => by omega

section Landings

variable {pt : PieceType} {s t : Square} {d : Int × Int}

/-- Where black gets by an offset, if that is on the board. -/
def landing (s : Square) (d : Int × Int) : Option Square :=
  if h : onBoard (s.file + d.1) = true ∧ onBoard (s.rank - d.2) = true then
    some (.ofCoord (s.file + d.1).toNat (s.rank - d.2).toNat
      (by rw [onBoard_iff] at h; omega) (by rw [onBoard_iff, onBoard_iff] at h; omega))
  else none

theorem landing_eq_some :
    landing s d = some t ↔ IsStep d.1 (d.2 * Color.black.forward) s t := by
  have hf := t.file_lt
  have hr := t.rank_lt
  rw [landing, IsStep, Color.forward]
  split
  · rename_i h
    rw [onBoard_iff, onBoard_iff] at h
    rw [Option.some.injEq]
    constructor
    · rintro rfl
      rw [Square.file_ofCoord, Square.rank_ofCoord]
      omega
    · intro h'
      apply Square.ext_coord
      · rw [Square.file_ofCoord]
        omega
      · rw [Square.rank_ofCoord]
        omega
  · rename_i h
    rw [onBoard_iff, onBoard_iff] at h
    exact iff_of_false (fun h' => by cases h') fun h' => h (by omega)

/-- The squares that the offsets lead to. -/
def landings (pt : PieceType) (s : Square) : List Square := pt.offsets.filterMap (landing s)

theorem nodup_landings : (landings pt s).Nodup := by
  refine List.Nodup.filterMap (fun d d' t hd hd' => ?_) pt.nodup_offsets
  rw [Option.mem_def, landing_eq_some, IsStep, Color.forward] at hd hd'
  exact Prod.ext (by omega) (by omega)

/-- Sliding is a number of steps in one direction. -/
theorem exists_slides_iff : (∃ d ∈ pt.slides, ∃ k : Nat, (1 ≤ k ∧ k < 9) ∧
    IsStep (d.1 * k) (d.2 * k * Color.black.forward) s t) ↔ pt.SlidesTo .black s t := by
  have hf := t.file_lt
  have hr := t.rank_lt
  have hf' := s.file_lt
  have hr' := s.rank_lt
  have hne := Square.ne_iff_coord (s := s) (t := t)
  constructor
  · rintro ⟨d, hd, k, hk, hstep⟩
    rw [IsStep, Color.forward] at hstep
    cases pt <;> simp only [PieceType.slides, List.mem_cons, List.not_mem_nil, or_false] at hd <;>
      simp only [PieceType.SlidesTo, Aligned, LineKind.inv, Color.forward, hne]
    case lance =>
      subst hd
      omega
    all_goals obtain rfl | rfl | rfl | rfl := hd <;> omega
  · intro h
    cases pt <;>
      simp only [PieceType.SlidesTo, Aligned, LineKind.inv, Color.forward, hne] at h <;>
      simp only [PieceType.slides, List.mem_cons, List.not_mem_nil, or_false, exists_eq_or_imp,
        exists_eq_left, IsStep, Color.forward]
    case lance => exact ⟨s.rank - t.rank, by omega, by omega⟩
    case bishop | horse =>
      -- the number of steps is the change of the file
      rcases Nat.lt_or_gt_of_ne (show s.file ≠ t.file by omega) with hlt | hlt
      · rcases Nat.lt_or_ge s.rank t.rank with hlt' | hlt'
        · exact Or.inr (Or.inl ⟨t.file - s.file, by omega, by omega⟩)
        · exact Or.inl ⟨t.file - s.file, by omega, by omega⟩
      · rcases Nat.lt_or_ge s.rank t.rank with hlt' | hlt'
        · exact Or.inr (Or.inr (Or.inr ⟨s.file - t.file, by omega, by omega⟩))
        · exact Or.inr (Or.inr (Or.inl ⟨s.file - t.file, by omega, by omega⟩))
    case rook | dragon =>
      rcases Nat.lt_trichotomy s.file t.file with hlt | heq | hlt
      · exact Or.inl ⟨t.file - s.file, by omega, by omega⟩
      · rcases Nat.lt_or_ge t.rank s.rank with hlt' | hlt'
        · exact Or.inr (Or.inr (Or.inl ⟨s.rank - t.rank, by omega, by omega⟩))
        · exact Or.inr (Or.inr (Or.inr ⟨t.rank - s.rank, by omega, by omega⟩))
      · exact Or.inr (Or.inl ⟨s.file - t.file, by omega, by omega⟩)

/-- The offsets lead to the squares that the man reaches. -/
theorem mem_landings : t ∈ landings pt s ↔ Reach pt .black s t := by
  rw [Reach, ← exists_slides_iff]
  simp only [landings, List.mem_filterMap, landing_eq_some, PieceType.offsets, List.mem_append,
    or_and_right, exists_or]
  refine or_congr_right ?_
  simp only [List.mem_flatMap, List.mem_map, List.mem_range'_1]
  constructor
  · rintro ⟨_, ⟨d, hd, k, hk, rfl⟩, hstep⟩
    exact ⟨d, hd, k, hk, hstep⟩
  · rintro ⟨d, hd, k, hk, hstep⟩
    exact ⟨_, ⟨d, hd, k, hk, rfl⟩, hstep⟩

end Landings

end Shogi
