import ShogiEngine.Shogi.Board

/-!
# Tables for moves that check

The tables of `InitDirectAttackTables` and `InitMoveCheckTables`: from which squares a man attacks
the king, and from which squares some move of it, promoted or not, can come to attack the king.

## Main definitions

- `pawnCheckBB` to `horseCheckBB`: squares of direct attack
- `pawnMoveCheckBB` to `horseMoveCheckBB`: squares to move from

## Main results

- `mem_checkTable`: a direct table looks back from the king
- `mem_silverMoveCheckBB` and its siblings: no move that checks starts outside its table
-/

namespace Shogi

/-- A loop that adds, for each square of `candidates`, the squares of `f`. -/
def Bitboard.orOver (tbl candidates : Bitboard) (f : Square → Bitboard) : Bitboard :=
  candidates.squares.foldl (fun tbl checkSq => tbl ||| f checkSq) tbl

@[simp] theorem Bitboard.mem_orOver {tbl candidates : Bitboard} {f : Square → Bitboard}
    {t : Square} : t ∈ tbl.orOver candidates f ↔ t ∈ tbl ∨ ∃ s ∈ candidates, t ∈ f s := by
  have hfold : ∀ (l : List Square) (tbl : Bitboard),
      t ∈ l.foldl (fun tbl s => tbl ||| f s) tbl ↔ t ∈ tbl ∨ ∃ s ∈ l, t ∈ f s := by
    intro l
    induction l with
    | nil => simp
    | cons s l ih =>
      intro tbl
      rw [List.foldl_cons, ih, Bitboard.mem_or, or_assoc, List.exists_mem_cons_iff]
  rw [orOver, hfold]
  simp

/-! ## Squares of direct attack -/

/-- The squares from which `effect` hits `ksq`. -/
def checkTable (effect : Square → Bitboard) (ksq : Square) : Bitboard :=
  collect fun s => (effect s).test ksq

@[simp] theorem mem_checkTable {effect : Square → Bitboard} {k t : Square} :
    t ∈ checkTable effect k ↔ k ∈ effect t := mem_collect

/-- `PawnCheckBB`. -/
def pawnCheckBB (ksq : Square) (c : Color) : Bitboard := checkTable (pawnEffectBB · c) ksq

/-- `KnightCheckBB`. -/
def knightCheckBB (ksq : Square) (c : Color) : Bitboard := checkTable (knightEffectBB · c) ksq

/-- `SilverCheckBB`. -/
def silverCheckBB (ksq : Square) (c : Color) : Bitboard := checkTable (silverEffectBB · c) ksq

/-- `GoldCheckBB`. -/
def goldCheckBB (ksq : Square) (c : Color) : Bitboard := checkTable (goldEffectBB · c) ksq

/-- `LanceCheckBB`. -/
def lanceCheckBB (ksq : Square) (c : Color) : Bitboard := checkTable (lanceMaskBB · c) ksq

/-- `BishopCheckBB`. -/
def bishopCheckBB (ksq : Square) : Bitboard := checkTable bishopEffectBB ksq

/-- `HorseCheckBB`. -/
def horseCheckBB (ksq : Square) : Bitboard := bishopCheckBB ksq ||| horseStepBB ksq

/-! ## Squares to move from -/

/-- The rank just outside the promotion zone. -/
def rank4 : Color → Bitboard
  | .black => rankBB 3
  | .white => rankBB 5

/-- `GoldMoveCheckBB`. -/
def goldMoveCheckBB (ksq : Square) (c : Color) : Bitboard :=
  let opp := ~~~c
  let tbl := Bitboard.zero.orOver (goldEffectBB ksq opp) fun checkSq => goldEffectBB checkSq opp
  tbl &&& ~~~squareBB ksq &&& ~~~goldEffectBB ksq opp

/-- `SilverMoveCheckBB`. -/
def silverMoveCheckBB (ksq : Square) (c : Color) : Bitboard :=
  let opp := ~~~c
  let tbl := Bitboard.zero.orOver (silverEffectBB ksq opp) fun checkSq => silverEffectBB checkSq opp
  let tbl := tbl.orOver (goldEffectBB ksq opp) fun checkSq =>
    silverEffectBB checkSq opp &&& promotionZoneBB c
  let tbl := tbl.orOver (goldEffectBB ksq opp &&& promotionZoneBB c) fun checkSq =>
    silverEffectBB checkSq opp &&& rank4 c
  tbl &&& ~~~squareBB ksq &&& ~~~silverEffectBB ksq opp

/-- `KnightMoveCheckBB`. -/
def knightMoveCheckBB (ksq : Square) (c : Color) : Bitboard :=
  let opp := ~~~c
  let tbl := Bitboard.zero.orOver (knightEffectBB ksq opp) fun checkSq => knightEffectBB checkSq opp
  tbl.orOver (goldEffectBB ksq opp &&& promotionZoneBB c) fun checkSq => knightEffectBB checkSq opp

/-- `LanceMoveCheckBB`. -/
def lanceMoveCheckBB (ksq : Square) (c : Color) : Bitboard :=
  let opp := ~~~c
  let tbl := (lanceMaskBB ksq opp).orOver (goldEffectBB ksq opp &&& promotionZoneBB c)
    fun checkSq => lanceMaskBB checkSq opp
  tbl &&& ~~~squareBB ksq &&& ~~~pawnEffectBB ksq opp

/-- `PawnMoveCheckBB`. -/
def pawnMoveCheckBB (ksq : Square) (c : Color) : Bitboard :=
  let opp := ~~~c
  let tbl := Bitboard.zero.orOver (pawnEffectBB ksq opp) fun checkSq => pawnEffectBB checkSq opp
  let tbl := tbl.orOver (goldEffectBB ksq opp &&& promotionZoneBB c) fun checkSq =>
    pawnEffectBB checkSq opp
  tbl &&& ~~~squareBB ksq

/-- `BishopMoveCheckBB`. -/
def bishopMoveCheckBB (ksq : Square) (c : Color) : Bitboard :=
  let tbl := Bitboard.zero.orOver (bishopEffectBB ksq) bishopEffectBB
  let tbl := tbl.orOver (kingEffectBB ksq &&& promotionZoneBB c) bishopEffectBB
  let tbl := tbl.orOver (kingEffectBB ksq) fun checkSq => bishopEffectBB checkSq &&& promotionZoneBB c
  tbl &&& ~~~squareBB ksq

/-- `HorseMoveCheckBB`. -/
def horseMoveCheckBB (ksq : Square) : Bitboard :=
  let tbl := Bitboard.zero.orOver (bishopEffectBB ksq ||| horseStepBB ksq) fun checkSq =>
    bishopEffectBB checkSq ||| horseStepBB checkSq
  tbl &&& ~~~squareBB ksq

/-! ## No move that checks starts elsewhere -/

section Candidates

variable {c : Color} {s t k : Square}

/-- One of the squares involved in a promotion lies in the zone. -/
abbrev InZone (c : Color) (s t : Square) : Prop :=
  s.inPromotionZone c = true ∨ t.inPromotionZone c = true

/-- A man that only moves forward promotes on a square of the zone. -/
theorem inPromotionZone_of_forward {pt : PieceType}
    (hpt : pt = .pawn ∨ pt = .lance ∨ pt = .knight) (h : Reach pt c s t) (hz : InZone c s t) :
    t.inPromotionZone c = true := by
  refine hz.elim (fun hs => ?_) id
  rw [reach_iff] at h
  rcases hpt with rfl | rfl | rfl <;> cases c <;>
    simp only [Square.inPromotionZone, decide_eq_true_eq] at hs h ⊢ <;> omega

/-- A silver enters the zone from the rank just outside it. -/
theorem mem_rank4_of_silver (h : Reach .silver c s t) (ht : t.inPromotionZone c = true)
    (hs : s.inPromotionZone c = false) : s ∈ rank4 c := by
  rw [reach_iff] at h
  cases c <;> simp only [Square.inPromotionZone, decide_eq_true_eq, decide_eq_false_iff_not,
    rank4, mem_rankBB] at h ht hs ⊢ <;> omega

theorem reach_lance_of_pawn (h : Reach .pawn c s t) : Reach .lance c s t := by
  rw [reach_iff] at h ⊢
  cases c <;> simp only at h ⊢ <;> omega

theorem reach_lance_trans (h : Reach .lance c s t) (h' : Reach .lance c t k) :
    Reach .lance c s k := by
  rw [reach_iff] at h h' ⊢
  cases c <;> simp only at h h' ⊢ <;> omega

theorem reach_horse_cases (h : Reach .horse c s t) : Reach .bishop c s t ∨ Reach .king c s t := by
  rw [reach_iff] at h ⊢
  rw [reach_iff]
  simp only at h ⊢
  omega

theorem mem_goldMoveCheckBB (hsk : s ≠ k) (hno : ¬ Reach .gold c s k) (h : Reach .gold c s t)
    (ht : Reach .gold c t k) : s ∈ goldMoveCheckBB k c := by
  simp only [goldMoveCheckBB, Bitboard.mem_and, Bitboard.mem_orOver, Bitboard.mem_compl,
    mem_goldEffectBB, mem_squareBB, reach_symm]
  exact ⟨⟨Or.inr ⟨t, ht, h⟩, hsk⟩, hno⟩

theorem mem_silverMoveCheckBB (hsk : s ≠ k) (hno : ¬ Reach .silver c s k)
    (h : Reach .silver c s t)
    (ht : Reach .silver c t k ∨ InZone c s t ∧ Reach .gold c t k) :
    s ∈ silverMoveCheckBB k c := by
  simp only [silverMoveCheckBB, Bitboard.mem_and, Bitboard.mem_orOver, Bitboard.mem_compl,
    mem_silverEffectBB, mem_goldEffectBB, mem_squareBB, mem_promotionZoneBB, reach_symm]
  refine ⟨⟨?_, hsk⟩, hno⟩
  rcases ht with ht | ⟨hz, ht⟩
  · exact Or.inl (Or.inl (Or.inr ⟨t, ht, h⟩))
  · by_cases hs : s.inPromotionZone c = true
    · exact Or.inl (Or.inr ⟨t, ht, h, hs⟩)
    · have htz := hz.resolve_left hs
      exact Or.inr ⟨t, ⟨ht, htz⟩, h, mem_rank4_of_silver h htz (by simpa using hs)⟩

theorem mem_knightMoveCheckBB (h : Reach .knight c s t)
    (ht : Reach .knight c t k ∨ InZone c s t ∧ Reach .gold c t k) :
    s ∈ knightMoveCheckBB k c := by
  simp only [knightMoveCheckBB, Bitboard.mem_and, Bitboard.mem_orOver, mem_knightEffectBB,
    mem_goldEffectBB, mem_promotionZoneBB, reach_symm]
  rcases ht with ht | ⟨hz, ht⟩
  · exact Or.inl (Or.inr ⟨t, ht, h⟩)
  · exact Or.inr ⟨t, ⟨ht, inPromotionZone_of_forward (by simp) h hz⟩, h⟩

theorem mem_lanceMoveCheckBB (hsk : s ≠ k) (hno : ¬ Reach .pawn c s k) (h : Reach .lance c s t)
    (ht : Reach .lance c t k ∨ InZone c s t ∧ Reach .gold c t k) :
    s ∈ lanceMoveCheckBB k c := by
  simp only [lanceMoveCheckBB, Bitboard.mem_and, Bitboard.mem_orOver, Bitboard.mem_compl,
    mem_lanceMaskBB, mem_goldEffectBB, mem_pawnEffectBB, mem_squareBB, mem_promotionZoneBB,
    reach_symm]
  refine ⟨⟨?_, hsk⟩, hno⟩
  rcases ht with ht | ⟨hz, ht⟩
  · exact Or.inl (reach_lance_trans h ht)
  · exact Or.inr ⟨t, ⟨ht, inPromotionZone_of_forward (by simp) h hz⟩, h⟩

theorem mem_pawnMoveCheckBB (hsk : s ≠ k) (h : Reach .pawn c s t)
    (ht : Reach .pawn c t k ∨ InZone c s t ∧ Reach .gold c t k) : s ∈ pawnMoveCheckBB k c := by
  simp only [pawnMoveCheckBB, Bitboard.mem_and, Bitboard.mem_orOver, Bitboard.mem_compl,
    mem_goldEffectBB, mem_pawnEffectBB, mem_squareBB, mem_promotionZoneBB, reach_symm]
  refine ⟨?_, hsk⟩
  rcases ht with ht | ⟨hz, ht⟩
  · exact Or.inl (Or.inr ⟨t, ht, h⟩)
  · exact Or.inr ⟨t, ⟨ht, inPromotionZone_of_forward (by simp) h hz⟩, h⟩

theorem mem_bishopEffectBB_symm : s ∈ bishopEffectBB t ↔ Reach .bishop c s t := by
  rw [mem_bishopEffectBB (~~~c), reach_symm]

theorem mem_kingEffectBB_symm : s ∈ kingEffectBB t ↔ Reach .king c s t := by
  rw [mem_kingEffectBB (~~~c), reach_symm]

theorem mem_bishopMoveCheckBB (hsk : s ≠ k) (h : Reach .bishop c s t)
    (ht : Reach .bishop c t k ∨ InZone c s t ∧ Reach .horse c t k) :
    s ∈ bishopMoveCheckBB k c := by
  have hs := (mem_bishopEffectBB_symm (c := c)).mpr h
  simp only [bishopMoveCheckBB, Bitboard.mem_and, Bitboard.mem_orOver, Bitboard.mem_compl,
    mem_squareBB, mem_promotionZoneBB]
  refine ⟨?_, hsk⟩
  have hslide : Reach .bishop c t k → ∃ u ∈ bishopEffectBB k, s ∈ bishopEffectBB u :=
    fun ht => ⟨t, mem_bishopEffectBB_symm.mpr ht, hs⟩
  rcases ht with ht | ⟨hz, ht⟩
  · exact Or.inl (Or.inl (Or.inr (hslide ht)))
  · rcases reach_horse_cases ht with ht | ht
    · exact Or.inl (Or.inl (Or.inr (hslide ht)))
    · have hkt := (mem_kingEffectBB_symm (c := c)).mpr ht
      rcases hz with hz | hz
      · exact Or.inr ⟨t, hkt, hs, hz⟩
      · exact Or.inl (Or.inr ⟨t, ⟨hkt, hz⟩, hs⟩)

theorem mem_horseMoveCheckBB (hsk : s ≠ k) (h : Reach .horse c s t) (ht : Reach .horse c t k) :
    s ∈ horseMoveCheckBB k := by
  have hback : ∀ {u v}, Reach .horse c u v → u ∈ bishopEffectBB v ∨ u ∈ horseStepBB v := by
    intro u v huv
    rw [← reach_symm, reach_horse_iff] at huv
    exact huv.imp_left (mem_bishopEffectBB (~~~c)).mpr
  simp only [horseMoveCheckBB, Bitboard.mem_and, Bitboard.mem_or, Bitboard.mem_orOver,
    Bitboard.mem_compl, mem_squareBB]
  exact ⟨Or.inr ⟨t, hback ht, hback h⟩, hsk⟩

end Candidates

end Shogi
