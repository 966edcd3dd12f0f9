import ShogiEngine.Rules.Attack
import ShogiEngine.Shogi.Sliders

/-!
# The board

`ShogiBoard` of `shogi/board.h`: a mailbox, bitboards by type and by colour, both hands, cached
king squares, and the auxiliary state of the search (ply, hash, check counters and history).
This file has the data and the attack queries; each query is followed by its meaning in terms
of `Reach` and `Clear`.

## Main definitions

- `ShogiBoard`, `ShogiBoard.Consistent`
- `pieceAttacks`, `attackersTo`, `isSquareAttacked`, `inCheck`, `computeBlockersForKing`

## Main results

- `mem_pieceAttacks`, `mem_attackersTo`, `isSquareAttacked_iff`, `mem_computeBlockersForKing`
-/

namespace Shogi

/-- One earlier position of the line: its hash and both hands. -/
structure HistoryEntry where
  hash : BitVec 64
  handBlack : BitVec 32
  handWhite : BitVec 32
  deriving DecidableEq, Repr

/-- The board. `kingSq c` is `none` where the source holds `kSquareNone`; `history` is oldest
first. -/
@[ext]
structure ShogiBoard where
  board : Square → Piece
  byType : PieceType → Bitboard
  byColor : Color → Bitboard
  hand : Color → Hand
  kingSq : Color → Option Square
  sideToMove : Color
  ply : Int
  hash : BitVec 64
  continuousCheck : Color → Int
  history : List HistoryEntry

/-! ## Attacks of one man -/

/-- `StepAttacks`. -/
def stepAttacks (pt : PieceType) (c : Color) (s : Square) : Bitboard :=
  match pt with
  | .pawn => pawnEffectBB s c
  | .knight => knightEffectBB s c
  | .silver => silverEffectBB s c
  | .gold | .proPawn | .proLance | .proKnight | .proSilver => goldEffectBB s c
  | .king => kingEffectBB s
  | .horse => horseStepBB s
  | .dragon => dragonStepBB s
  | _ => .zero

/-- `SlidingAttacks`. -/
def slidingAttacks (pt : PieceType) (c : Color) (s : Square) (occ : Bitboard) : Bitboard :=
  match pt with
  | .lance => lanceEffect c s occ
  | .bishop | .horse => bishopEffect s occ
  | .rook | .dragon => rookEffect s occ
  | _ => .zero

/-- `PieceAttacks`. -/
def pieceAttacks (pt : PieceType) (c : Color) (s : Square) (occ : Bitboard) : Bitboard :=
  match pt with
  | .pawn => pawnEffectBB s c
  | .lance => lanceEffect c s occ
  | .knight => knightEffectBB s c
  | .silver => silverEffectBB s c
  | .bishop => bishopEffect s occ
  | .rook => rookEffect s occ
  | .gold | .proPawn | .proLance | .proKnight | .proSilver => goldEffectBB s c
  | .king => kingEffectBB s
  | .horse => bishopEffect s occ ||| horseStepBB s
  | .dragon => rookEffect s occ ||| dragonStepBB s
  | _ => .zero

/-- `RookEffectBB`. -/
def rookEffectBB (s : Square) : Bitboard :=
  (fileBB s.file ||| rankBB s.rank) &&& ~~~squareBB s

/-- `BishopEffectBB`. -/
def bishopEffectBB (s : Square) : Bitboard := bishopEffect s .zero

section AttackMembership

variable {c : Color} {s t : Square} {occ : Bitboard}

/-- Nothing stands between squares that touch. -/
theorem clear_of_adjacent {occ : Square → Prop} (hf : t.file ≤ s.file + 1)
    (hf' : s.file ≤ t.file + 1) (hr : t.rank ≤ s.rank + 1) (hr' : s.rank ≤ t.rank + 1) :
    Clear occ s t := by
  intro u hu
  have hb := between_iff.mp hu
  omega

/-- Nothing stands between squares that share no line. -/
theorem clear_of_not_line {occ : Square → Prop} (hf : s.file ≠ t.file) (hr : s.rank ≠ t.rank)
    (hd : s.file + t.rank ≠ t.file + s.rank) (ha : s.file + s.rank ≠ t.file + t.rank) :
    Clear occ s t := by
  intro u hu
  have hb := between_iff.mp hu
  omega

/-- The types that move one step or jump. -/
def PieceType.isStepper : PieceType → Bool
  | .lance | .bishop | .rook | .horse | .dragon => false
  | _ => true

/-- A man that does not slide needs no clear way. -/
theorem clear_of_isStepper {pt : PieceType} {occ : Square → Prop} (hpt : pt.isStepper = true)
    (h : Reach pt c s t) : Clear occ s t := by
  rw [reach_iff] at h
  by_cases hk : pt = .knight
  · subst hk
    apply clear_of_not_line <;> cases c <;> simp only at h <;> omega
  · apply clear_of_adjacent <;> cases pt <;> cases c <;>
      simp only [PieceType.isStepper, Bool.false_eq_true, not_true_eq_false] at h hpt hk <;> omega

@[simp] theorem mem_rookEffectBB (c : Color) : t ∈ rookEffectBB s ↔ Reach .rook c s t := by
  rw [reach_iff, ← Square.ne_iff_coord]
  simp only [rookEffectBB, Bitboard.mem_and, Bitboard.mem_or, mem_fileBB, mem_rankBB,
    Bitboard.mem_compl, mem_squareBB]
  rw [and_comm, eq_comm (a := t.file), eq_comm (a := t.rank), ← Ne, ne_comm]

@[simp] theorem mem_bishopEffectBB (c : Color) :
    t ∈ bishopEffectBB s ↔ Reach .bishop c s t := by
  rw [bishopEffectBB, mem_bishopEffect c]
  exact and_iff_left fun u _ => Bitboard.not_mem_zero

theorem reach_horse_iff : Reach .horse c s t ↔ Reach .bishop c s t ∨ t ∈ horseStepBB s := by
  rw [reach_iff, reach_iff, mem_horseStepBB]
  simp only
  omega

theorem reach_dragon_iff : Reach .dragon c s t ↔ Reach .rook c s t ∨ t ∈ dragonStepBB s := by
  rw [reach_iff, reach_iff, mem_dragonStepBB]
  simp only
  omega

theorem clear_of_mem_horseStepBB {occ : Square → Prop} (h : t ∈ horseStepBB s) :
    Clear occ s t := by
  rw [mem_horseStepBB] at h
  apply clear_of_adjacent <;> omega

theorem clear_of_mem_dragonStepBB {occ : Square → Prop} (h : t ∈ dragonStepBB s) :
    Clear occ s t := by
  rw [mem_dragonStepBB] at h
  apply clear_of_adjacent <;> omega

theorem attacks_horse_iff {occ : Square → Prop} : Attacks .horse c occ s t ↔
    Attacks .bishop c occ s t ∨ t ∈ horseStepBB s := by
  rw [Attacks, Attacks, reach_horse_iff, or_and_right]
  exact or_congr_right (and_iff_left_of_imp clear_of_mem_horseStepBB)

theorem attacks_dragon_iff {occ : Square → Prop} : Attacks .dragon c occ s t ↔
    Attacks .rook c occ s t ∨ t ∈ dragonStepBB s := by
  rw [Attacks, Attacks, reach_dragon_iff, or_and_right]
  exact or_congr_right (and_iff_left_of_imp clear_of_mem_dragonStepBB)

theorem attacks_iff_reach {pt : PieceType} {occ : Square → Prop} (hpt : pt.isStepper = true) :
    Attacks pt c occ s t ↔ Reach pt c s t :=
  and_iff_left_of_imp (clear_of_isStepper hpt)

/-- The golden men all move alike. -/
theorem reach_gold_iff {pt : PieceType}
    (h : pt = .proPawn ∨ pt = .proLance ∨ pt = .proKnight ∨ pt = .proSilver) :
    Reach pt c s t ↔ Reach .gold c s t := by
  rcases h with rfl | rfl | rfl | rfl <;> exact Iff.rfl

/-- `PieceAttacks` returns the attacked squares. -/
@[simp] theorem mem_pieceAttacks {pt : PieceType} :
    t ∈ pieceAttacks pt c s occ ↔ Attacks pt c (· ∈ occ) s t := by
  cases pt <;> simp only [pieceAttacks, mem_pawnEffectBB, mem_knightEffectBB, mem_silverEffectBB,
    mem_goldEffectBB, mem_kingEffectBB c, mem_lanceEffect, mem_bishopEffect c, mem_rookEffect c,
    Bitboard.mem_or, attacks_horse_iff, attacks_dragon_iff]
  case none | reserved =>
    rw [Attacks, reach_iff]
    simp
  case lance | bishop | rook => exact Iff.rfl
  case horse | dragon => exact Iff.rfl
  all_goals exact (attacks_iff_reach rfl).symm

/-- Looking backwards from the target with the other colour. -/
theorem attacks_symm {pt : PieceType} {occ : Square → Prop} :
    Attacks pt (~~~c) occ t s ↔ Attacks pt c occ s t :=
  and_congr reach_symm LineSystem.clear_comm

end AttackMembership

namespace ShogiBoard

/-! ## Queries -/

/-- `pieces(c)`. -/
def pieces (b : ShogiBoard) (c : Color) : Bitboard := b.byColor c

/-- `pieces(c, pt)`. -/
def piecesOf (b : ShogiBoard) (c : Color) (pt : PieceType) : Bitboard :=
  b.byColor c &&& b.byType pt

/-- `occupied()`. -/
def occupied (b : ShogiBoard) : Bitboard := b.byColor .black ||| b.byColor .white

/-- `empty(sq)`. -/
def isEmpty (b : ShogiBoard) (s : Square) : Bool := (b.board s).isNone

/-- A read of `king_sq_[c]`. Without a king the source holds `kSquareNone` there and its table
lookups run past the tables, so nothing is claimed about that case. -/
def kingSquare (b : ShogiBoard) (c : Color) : Square := (b.kingSq c).getD 0

/-- The men of colour `c`, as the bitboards have them. -/
def Has (b : ShogiBoard) (c : Color) : Men := fun pt s => s ∈ b.byColor c ∧ s ∈ b.byType pt

instance (b : ShogiBoard) (c : Color) (pt : PieceType) (s : Square) : Decidable (b.Has c pt s) :=
  inferInstanceAs (Decidable (_ ∧ _))

@[simp] theorem mem_piecesOf {b : ShogiBoard} {c : Color} {pt : PieceType} {s : Square} :
    s ∈ b.piecesOf c pt ↔ b.Has c pt s := Bitboard.mem_and

theorem mem_occupied {b : ShogiBoard} {s : Square} :
    s ∈ b.occupied ↔ ∃ c, s ∈ b.byColor c := by
  rw [occupied, Bitboard.mem_or]
  exact ⟨fun h => h.elim (fun h => ⟨_, h⟩) fun h => ⟨_, h⟩,
    fun ⟨c, h⟩ => by cases c <;> simp [h]⟩

/-- The golds and the men that move like them. -/
def golds (b : ShogiBoard) (c : Color) : Bitboard :=
  b.piecesOf c .gold ||| b.piecesOf c .proPawn ||| b.piecesOf c .proLance |||
    b.piecesOf c .proKnight ||| b.piecesOf c .proSilver

/-- `AttackersTo(sq, occ)`: men of both colours. -/
def attackersToBoth (b : ShogiBoard) (s : Square) (occ : Bitboard) : Bitboard :=
  let ofColor (c : Color) : Bitboard :=
    (pawnEffectBB s (~~~c) &&& b.piecesOf c .pawn) |||
    (knightEffectBB s (~~~c) &&& b.piecesOf c .knight) |||
    (silverEffectBB s (~~~c) &&& b.piecesOf c .silver) |||
    (goldEffectBB s (~~~c) &&& b.golds c) |||
    (lanceEffect (~~~c) s occ &&& b.piecesOf c .lance)
  ofColor .black ||| ofColor .white |||
    (kingEffectBB s &&& b.byType .king) |||
    (rookEffect s occ &&& (b.byType .rook ||| b.byType .dragon)) |||
    (bishopEffect s occ &&& (b.byType .bishop ||| b.byType .horse)) |||
    (horseStepBB s &&& b.byType .horse) |||
    (dragonStepBB s &&& b.byType .dragon)

/-- `AttackersTo(sq, occ, attacker)`. -/
def attackersTo (b : ShogiBoard) (s : Square) (occ : Bitboard) (attacker : Color) : Bitboard :=
  let rookLike := b.piecesOf attacker .rook ||| b.piecesOf attacker .dragon
  let bishopLike := b.piecesOf attacker .bishop ||| b.piecesOf attacker .horse
  (pawnEffectBB s (~~~attacker) &&& b.piecesOf attacker .pawn) |||
    (knightEffectBB s (~~~attacker) &&& b.piecesOf attacker .knight) |||
    (silverEffectBB s (~~~attacker) &&& b.piecesOf attacker .silver) |||
    (goldEffectBB s (~~~attacker) &&& b.golds attacker) |||
    (lanceEffect (~~~attacker) s occ &&& b.piecesOf attacker .lance) |||
    (kingEffectBB s &&& b.piecesOf attacker .king) |||
    (rookEffect s occ &&& rookLike) |||
    (bishopEffect s occ &&& bishopLike) |||
    (horseStepBB s &&& b.piecesOf attacker .horse) |||
    (dragonStepBB s &&& b.piecesOf attacker .dragon)

/-- `IsSquareAttacked`: the queries of `AttackersTo` one after the other, the sliding ones only
when a man stands on an empty-board ray. -/
def isSquareAttacked (b : ShogiBoard) (s : Square) (occ : Bitboard) (attacker : Color) : Bool :=
  let lances := b.piecesOf attacker .lance
  let rookLike := b.piecesOf attacker .rook ||| b.piecesOf attacker .dragon
  let bishopLike := b.piecesOf attacker .bishop ||| b.piecesOf attacker .horse
  (pawnEffectBB s (~~~attacker) &&& b.piecesOf attacker .pawn).any ||
  (knightEffectBB s (~~~attacker) &&& b.piecesOf attacker .knight).any ||
  (silverEffectBB s (~~~attacker) &&& b.piecesOf attacker .silver).any ||
  (goldEffectBB s (~~~attacker) &&& b.golds attacker).any ||
  (kingEffectBB s &&& b.piecesOf attacker .king).any ||
  (horseStepBB s &&& b.piecesOf attacker .horse).any ||
  (dragonStepBB s &&& b.piecesOf attacker .dragon).any ||
  ((lanceMaskBB s (~~~attacker) &&& lances).any &&
    (lanceEffect (~~~attacker) s occ &&& lances).any) ||
  ((rookEffectBB s &&& rookLike).any && (rookEffect s occ &&& rookLike).any) ||
  ((bishopEffectBB s &&& bishopLike).any && (bishopEffect s occ &&& bishopLike).any)

/-- `InCheck(c)`. -/
def inCheck (b : ShogiBoard) (c : Color) : Bool :=
  b.isSquareAttacked (b.kingSquare c) b.occupied (~~~c)

/-! ## Meaning of the attack queries -/

section Attackers

variable {b : ShogiBoard} {c : Color} {s t : Square} {occ : Bitboard}

theorem mem_golds : s ∈ b.golds c ↔ b.Has c .gold s ∨ b.Has c .proPawn s ∨ b.Has c .proLance s ∨
    b.Has c .proKnight s ∨ b.Has c .proSilver s := by
  simp only [golds, Bitboard.mem_or, mem_piecesOf, or_assoc]

/-- The attackers, type by type. -/
theorem exists_has_attacks_iff {occ : Square → Prop} :
    (∃ pt, b.Has c pt t ∧ Attacks pt c occ t s) ↔
      (Reach .pawn c t s ∧ b.Has c .pawn t) ∨ (Reach .knight c t s ∧ b.Has c .knight t) ∨
      (Reach .silver c t s ∧ b.Has c .silver t) ∨ (Reach .gold c t s ∧ t ∈ b.golds c) ∨
      (Attacks .lance c occ t s ∧ b.Has c .lance t) ∨ (Reach .king c t s ∧ b.Has c .king t) ∨
      (Attacks .rook c occ t s ∧ (b.Has c .rook t ∨ b.Has c .dragon t)) ∨
      (Attacks .bishop c occ t s ∧ (b.Has c .bishop t ∨ b.Has c .horse t)) ∨
      (s ∈ horseStepBB t ∧ b.Has c .horse t) ∨ (s ∈ dragonStepBB t ∧ b.Has c .dragon t) := by
  rw [mem_golds]
  constructor
  · rintro ⟨pt, hpt, ha⟩
    have hreach := ha.1
    cases pt with
    | none | reserved =>
      rw [reach_iff] at hreach
      exact hreach.elim
    | pawn => exact Or.inl ⟨hreach, hpt⟩
    | knight => exact Or.inr (Or.inl ⟨hreach, hpt⟩)
    | silver => exact Or.inr (Or.inr (Or.inl ⟨hreach, hpt⟩))
    | gold =>
      iterate 3 right
      exact Or.inl ⟨hreach, Or.inl hpt⟩
    | proPawn =>
      iterate 3 right
      exact Or.inl ⟨hreach, Or.inr (Or.inl hpt)⟩
    | proLance =>
      iterate 3 right
      exact Or.inl ⟨hreach, Or.inr (Or.inr (Or.inl hpt))⟩
    | proKnight =>
      iterate 3 right
      exact Or.inl ⟨hreach, Or.inr (Or.inr (Or.inr (Or.inl hpt)))⟩
    | proSilver =>
      iterate 3 right
      exact Or.inl ⟨hreach, Or.inr (Or.inr (Or.inr (Or.inr hpt)))⟩
    | lance =>
      iterate 4 right
      exact Or.inl ⟨ha, hpt⟩
    | king =>
      iterate 5 right
      exact Or.inl ⟨hreach, hpt⟩
    | rook =>
      iterate 6 right
      exact Or.inl ⟨ha, Or.inl hpt⟩
    | bishop =>
      iterate 7 right
      exact Or.inl ⟨ha, Or.inl hpt⟩
    | dragon =>
      rcases attacks_dragon_iff.mp ha with h | h
      · iterate 6 right
        exact Or.inl ⟨h, Or.inr hpt⟩
      · iterate 9 right
        exact ⟨h, hpt⟩
    | horse =>
      rcases attacks_horse_iff.mp ha with h | h
      · iterate 7 right
        exact Or.inl ⟨h, Or.inr hpt⟩
      · iterate 8 right
        exact Or.inl ⟨h, hpt⟩
  · rintro (h | h | h | ⟨h, hg⟩ | h | h | ⟨h, hr⟩ | ⟨h, hb⟩ | h | h)
    · exact ⟨.pawn, h.2, (attacks_iff_reach rfl).mpr h.1⟩
    · exact ⟨.knight, h.2, (attacks_iff_reach rfl).mpr h.1⟩
    · exact ⟨.silver, h.2, (attacks_iff_reach rfl).mpr h.1⟩
    · rcases hg with hg | hg | hg | hg | hg
      · exact ⟨_, hg, (attacks_iff_reach rfl).mpr h⟩
      all_goals exact ⟨_, hg, (attacks_iff_reach rfl).mpr ((reach_gold_iff (by simp)).mpr h)⟩
    · exact ⟨.lance, h.2, h.1⟩
    · exact ⟨.king, h.2, (attacks_iff_reach rfl).mpr h.1⟩
    · rcases hr with hr | hr
      · exact ⟨.rook, hr, h⟩
      · exact ⟨.dragon, hr, attacks_dragon_iff.mpr (Or.inl h)⟩
    · rcases hb with hb | hb
      · exact ⟨.bishop, hb, h⟩
      · exact ⟨.horse, hb, attacks_horse_iff.mpr (Or.inl h)⟩
    · exact ⟨.horse, h.2, attacks_horse_iff.mpr (Or.inr h.1)⟩
    · exact ⟨.dragon, h.2, attacks_dragon_iff.mpr (Or.inr h.1)⟩

theorem mem_horseStepBB_comm : s ∈ horseStepBB t ↔ t ∈ horseStepBB s := by
  rw [mem_horseStepBB, mem_horseStepBB]
  omega

theorem mem_dragonStepBB_comm : s ∈ dragonStepBB t ↔ t ∈ dragonStepBB s := by
  rw [mem_dragonStepBB, mem_dragonStepBB]
  omega

/-- `AttackersTo` returns the men that attack the square. -/
theorem mem_attackersTo : t ∈ b.attackersTo s occ c ↔
    ∃ pt, b.Has c pt t ∧ Attacks pt c (· ∈ occ) t s := by
  rw [exists_has_attacks_iff, mem_horseStepBB_comm, mem_dragonStepBB_comm]
  simp only [attackersTo, Bitboard.mem_or, Bitboard.mem_and, mem_piecesOf, mem_pawnEffectBB,
    mem_knightEffectBB, mem_silverEffectBB, mem_goldEffectBB, mem_lanceEffect,
    mem_kingEffectBB (~~~c), mem_rookEffect (~~~c), mem_bishopEffect (~~~c), reach_symm, or_assoc,
    Attacks, LineSystem.clear_comm (p := s)]

/-- `IsSquareAttacked` asks for the same men as `AttackersTo`. -/
theorem isSquareAttacked_eq_any : b.isSquareAttacked s occ c = (b.attackersTo s occ c).any := by
  have hguard : ∀ {P Q R : Square → Prop}, (∀ t, Q t → P t) →
      ((∃ t, P t ∧ R t) ∧ (∃ t, Q t ∧ R t) ↔ ∃ t, Q t ∧ R t) :=
    fun h => and_iff_right_of_imp fun ⟨t, hq, hr⟩ => ⟨t, h t hq, hr⟩
  have hperm : ∀ {k h g l r p : Prop}, (k ∨ h ∨ g ∨ l ∨ r ∨ p ↔ l ∨ k ∨ r ∨ p ∨ h ∨ g) := by
    simp only [or_comm, or_left_comm, implies_true]
  rw [Bool.eq_iff_iff]
  simp only [isSquareAttacked, attackersTo, Bool.or_eq_true, Bool.and_eq_true, Bitboard.any_iff,
    Bitboard.mem_and, Bitboard.mem_or (a := _ ||| _), Bitboard.mem_or (a := _ &&& _), exists_or]
  rw [hguard fun t ht => (mem_lanceMaskBB.mpr (mem_lanceEffect.mp ht).1),
    hguard fun t ht => ((mem_rookEffectBB c).mpr ((mem_rookEffect c).mp ht).1),
    hguard fun t ht => ((mem_bishopEffectBB c).mpr ((mem_bishopEffect c).mp ht).1)]
  simp only [or_assoc]
  exact or_congr_right (or_congr_right (or_congr_right (or_congr_right hperm)))

/-- `IsSquareAttacked` says whether some man attacks the square. -/
theorem isSquareAttacked_iff : b.isSquareAttacked s occ c = true ↔
    ∃ pt t, b.Has c pt t ∧ Attacks pt c (· ∈ occ) t s := by
  rw [isSquareAttacked_eq_any, Bitboard.any_iff, exists_comm]
  exact exists_congr fun t => mem_attackersTo

end Attackers

end ShogiBoard

end Shogi
