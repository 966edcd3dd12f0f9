import Mathlib
import ShogiEngine.Library.LineSystem
import ShogiEngine.Shogi.Types

/-!
# Geometry of the shogi board

The rules of piece movement, in coordinates and independent of how the engine stores them.
The 81 squares form a line system with four kinds of lines (files, ranks and both kinds of
diagonals). A piece reaches a square by a single step or by a slide along a line; on an
occupied board it attacks the reached squares to which the way is clear.

## Main definitions

- `lines`: the squares as a line system
- `Reach`: the squares a man reaches on an empty board
- `reach_symm`: reaching backwards with the other colour
-/

namespace Shogi

/-! ## Lines -/

/-- The kinds of lines of the board; `diag` keeps `file - rank` and `anti` keeps
`file + rank`. -/
inductive LineKind
  | file
  | rank
  | diag
  | anti
  deriving DecidableEq, Repr

namespace LineKind

/-- The number of the line of a kind through a square. -/
def inv : LineKind → Square → Int
  | file, s => s.file
  | rank, s => s.rank
  | diag, s => s.file - s.rank
  | anti, s => s.file + s.rank

/-- The position of a square on its line of a kind. -/
def pos : LineKind → Square → Int
  | file, s => s.rank
  | _, s => s.file

end LineKind

/-- The squares of the board with their files, ranks and diagonals. -/
def lines : LineSystem Square LineKind Int Int where
  inv := LineKind.inv
  pos := LineKind.pos
  inj := by
    intro k p q hi hp
    apply Square.ext_coord <;> cases k <;> simp only [LineKind.inv, LineKind.pos] at hi hp <;> omega
  kind_unique := by
    intro k k' p q hne h h'
    by_contra hk
    apply hne
    apply Square.ext_coord <;> cases k <;> cases k' <;>
      simp only [LineKind.inv, not_true_eq_false] at h h' hk <;> omega

/-- `u` lies strictly between `s` and `t`. -/
abbrev Between (s u t : Square) : Prop := lines.Between s u t

/-- `u` lies on the line through `s` and `t`. -/
abbrev OnLine (s t u : Square) : Prop := lines.OnLine s t u

/-- No occupied square lies strictly between `s` and `t`. -/
abbrev Clear (occ : Square → Prop) (s t : Square) : Prop := lines.Clear occ s t

/-- `x` is the only occupied square strictly between `s` and `t`. -/
abbrev SoleBlocker (occ : Square → Prop) (s x t : Square) : Prop := lines.SoleBlocker occ s x t

/-- Two distinct squares share a line of kind `k`. -/
def Aligned (k : LineKind) (s t : Square) : Prop := s ≠ t ∧ k.inv s = k.inv t

theorem between_iff {s u t : Square} : Between s u t ↔
    (s.file = u.file ∧ u.file = t.file ∧
      (s.rank < u.rank ∧ u.rank < t.rank ∨ t.rank < u.rank ∧ u.rank < s.rank)) ∨
    ((s.rank = u.rank ∧ u.rank = t.rank ∨
        s.file + u.rank = u.file + s.rank ∧ u.file + t.rank = t.file + u.rank ∨
        s.file + s.rank = u.file + u.rank ∧ u.file + u.rank = t.file + t.rank) ∧
      (s.file < u.file ∧ u.file < t.file ∨ t.file < u.file ∧ u.file < s.file)) := by
  constructor
  · rintro ⟨k, h⟩
    cases k <;> simp only [LineSystem.BetweenOn, lines, LineKind.inv, LineKind.pos] at h <;> omega
  · intro h
    rcases h with ⟨h1, h2, h3⟩ | ⟨⟨h1, h2⟩ | ⟨h1, h2⟩ | ⟨h1, h2⟩, h3⟩
    · refine ⟨.file, ?_⟩
      simp only [LineSystem.BetweenOn, lines, LineKind.inv, LineKind.pos]
      omega
    · refine ⟨.rank, ?_⟩
      simp only [LineSystem.BetweenOn, lines, LineKind.inv, LineKind.pos]
      omega
    · refine ⟨.diag, ?_⟩
      simp only [LineSystem.BetweenOn, lines, LineKind.inv, LineKind.pos]
      omega
    · refine ⟨.anti, ?_⟩
      simp only [LineSystem.BetweenOn, lines, LineKind.inv, LineKind.pos]
      omega

theorem onLine_iff {s t u : Square} : OnLine s t u ↔ s ≠ t ∧
    (s.file = t.file ∧ t.file = u.file ∨ s.rank = t.rank ∧ t.rank = u.rank ∨
      s.file + t.rank = t.file + s.rank ∧ t.file + u.rank = u.file + t.rank ∨
      s.file + s.rank = t.file + t.rank ∧ t.file + t.rank = u.file + u.rank) := by
  refine and_congr_right fun _ => ⟨?_, ?_⟩
  · rintro ⟨k, h⟩
    cases k <;> simp only [lines, LineKind.inv] at h <;> omega
  · rintro (h | h | h | h)
    · refine ⟨.file, ?_⟩
      simp only [lines, LineKind.inv]
      omega
    · refine ⟨.rank, ?_⟩
      simp only [lines, LineKind.inv]
      omega
    · refine ⟨.diag, ?_⟩
      simp only [lines, LineKind.inv]
      omega
    · refine ⟨.anti, ?_⟩
      simp only [lines, LineKind.inv]
      omega

/-! ## Steps and slides -/

/-- The rank change of one step forward. -/
def Color.forward : Color → Int
  | .black => -1
  | .white => 1

/-- `t` lies `df` files and `dr` ranks away from `s`. -/
def IsStep (df dr : Int) (s t : Square) : Prop :=
  (t.file : Int) = s.file + df ∧ (t.rank : Int) = s.rank + dr

instance (df dr : Int) (s t : Square) : Decidable (IsStep df dr s t) :=
  inferInstanceAs (Decidable (_ ∧ _))

namespace PieceType

/-- The single steps of a man as (files, ranks forward). Promoted pawns, lances, knights and
silvers step like a gold. -/
def steps : PieceType → List (Int × Int)
  | pawn => [(0, 1)]
  | knight => [(-1, 2), (1, 2)]
  | silver => [(0, 1), (-1, 1), (1, 1), (-1, -1), (1, -1)]
  | gold | proPawn | proLance | proKnight | proSilver =>
    [(0, 1), (-1, 1), (1, 1), (-1, 0), (1, 0), (0, -1)]
  | king => [(-1, 1), (-1, 0), (-1, -1), (0, 1), (0, -1), (1, 1), (1, 0), (1, -1)]
  | horse => [(0, 1), (0, -1), (-1, 0), (1, 0)]
  | dragon => [(-1, 1), (-1, -1), (1, 1), (1, -1)]
  | _ => []

/-- The lines along which a man slides; a lance only slides forward. -/
def SlidesTo (pt : PieceType) (c : Color) (s t : Square) : Prop :=
  match pt with
  | lance => s.file = t.file ∧ 0 < ((t.rank : Int) - s.rank) * c.forward
  | bishop | horse => Aligned .diag s t ∨ Aligned .anti s t
  | rook | dragon => Aligned .file s t ∨ Aligned .rank s t
  | _ => False

end PieceType

/-- The squares a man of type `pt` and colour `c` reaches from `s` on an empty board. -/
def Reach (pt : PieceType) (c : Color) (s t : Square) : Prop :=
  (∃ d ∈ pt.steps, IsStep d.1 (d.2 * c.forward) s t) ∨ pt.SlidesTo c s t

/-- A man attacks the squares it reaches over a clear way. -/
def Attacks (pt : PieceType) (c : Color) (occ : Square → Prop) (s t : Square) : Prop :=
  Reach pt c s t ∧ Clear occ s t

/-! ## Symmetry and elementary facts -/

/-- `Reach` in coordinates, for the use of `omega`. -/
theorem reach_iff (pt : PieceType) (c : Color) (s t : Square) : Reach pt c s t ↔
    match pt, c with
    | .pawn, .black => t.file = s.file ∧ t.rank + 1 = s.rank
    | .pawn, .white => t.file = s.file ∧ t.rank = s.rank + 1
    | .lance, .black => t.file = s.file ∧ t.rank < s.rank
    | .lance, .white => t.file = s.file ∧ s.rank < t.rank
    | .knight, .black => (t.file + 1 = s.file ∨ t.file = s.file + 1) ∧ t.rank + 2 = s.rank
    | .knight, .white => (t.file + 1 = s.file ∨ t.file = s.file + 1) ∧ t.rank = s.rank + 2
    | .silver, .black => t.file = s.file ∧ t.rank + 1 = s.rank ∨
        (t.file + 1 = s.file ∨ t.file = s.file + 1) ∧
          (t.rank + 1 = s.rank ∨ t.rank = s.rank + 1)
    | .silver, .white => t.file = s.file ∧ t.rank = s.rank + 1 ∨
        (t.file + 1 = s.file ∨ t.file = s.file + 1) ∧
          (t.rank + 1 = s.rank ∨ t.rank = s.rank + 1)
    | .gold, .black | .proPawn, .black | .proLance, .black | .proKnight, .black
    | .proSilver, .black => t.file = s.file ∧ (t.rank + 1 = s.rank ∨ t.rank = s.rank + 1) ∨
        (t.file + 1 = s.file ∨ t.file = s.file + 1) ∧ (t.rank + 1 = s.rank ∨ t.rank = s.rank)
    | .gold, .white | .proPawn, .white | .proLance, .white | .proKnight, .white
    | .proSilver, .white => t.file = s.file ∧ (t.rank + 1 = s.rank ∨ t.rank = s.rank + 1) ∨
        (t.file + 1 = s.file ∨ t.file = s.file + 1) ∧ (t.rank = s.rank + 1 ∨ t.rank = s.rank)
    | .king, _ => (s.file ≠ t.file ∨ s.rank ≠ t.rank) ∧ t.file ≤ s.file + 1 ∧ s.file ≤ t.file + 1 ∧
        t.rank ≤ s.rank + 1 ∧ s.rank ≤ t.rank + 1
    | .bishop, _ => (s.file ≠ t.file ∨ s.rank ≠ t.rank) ∧
        (s.file + t.rank = t.file + s.rank ∨ s.file + s.rank = t.file + t.rank)
    | .rook, _ => (s.file ≠ t.file ∨ s.rank ≠ t.rank) ∧ (s.file = t.file ∨ s.rank = t.rank)
    | .horse, _ => (s.file ≠ t.file ∨ s.rank ≠ t.rank) ∧
        (s.file + t.rank = t.file + s.rank ∨ s.file + s.rank = t.file + t.rank ∨
          t.file ≤ s.file + 1 ∧ s.file ≤ t.file + 1 ∧ t.rank ≤ s.rank + 1 ∧ s.rank ≤ t.rank + 1)
    | .dragon, _ => (s.file ≠ t.file ∨ s.rank ≠ t.rank) ∧
        (s.file = t.file ∨ s.rank = t.rank ∨
          t.file ≤ s.file + 1 ∧ s.file ≤ t.file + 1 ∧ t.rank ≤ s.rank + 1 ∧ s.rank ≤ t.rank + 1)
    | _, _ => False := by
  have hne := Square.ne_iff_coord (s := s) (t := t)
  cases pt <;> cases c <;>
    simp only [Reach, PieceType.steps, PieceType.SlidesTo, Aligned, IsStep, LineKind.inv,
      Color.forward, List.mem_cons, List.not_mem_nil, or_false, false_and, exists_false, false_or,
      exists_eq_or_imp, exists_eq_left, hne, ne_eq] <;> omega

/-- What a man reaches, the same man of the other colour reaches backwards. -/
theorem reach_symm {pt : PieceType} {c : Color} {s t : Square} :
    Reach pt (~~~c) t s ↔ Reach pt c s t := by
  rw [reach_iff, reach_iff]
  cases pt <;> cases c <;> simp only [Color.compl_black, Color.compl_white] <;> omega

/-! ## Decidability -/

instance (s u t : Square) : Decidable (Between s u t) := decidable_of_iff _ between_iff.symm

instance (s t u : Square) : Decidable (OnLine s t u) := decidable_of_iff _ onLine_iff.symm

instance (occ : Square → Prop) [DecidablePred occ] (s t : Square) : Decidable (Clear occ s t) :=
  inferInstanceAs (Decidable (∀ u, Between s u t → ¬ occ u))

instance (k : LineKind) (s t : Square) : Decidable (Aligned k s t) :=
  inferInstanceAs (Decidable (_ ∧ _))

instance (pt : PieceType) (c : Color) (s t : Square) : Decidable (pt.SlidesTo c s t) := by
  unfold PieceType.SlidesTo
  cases pt <;> infer_instance

instance (pt : PieceType) (c : Color) (s t : Square) : Decidable (Reach pt c s t) :=
  inferInstanceAs (Decidable (_ ∨ _))

instance (pt : PieceType) (c : Color) (occ : Square → Prop) [DecidablePred occ] (s t : Square) :
    Decidable (Attacks pt c occ s t) :=
  inferInstanceAs (Decidable (_ ∧ _))

end Shogi
