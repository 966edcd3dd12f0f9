import ShogiEngine.Shogi.MoveGen
import ShogiEngine.Shogi.Setup

/-!
# What the loops of the generators collect

Each loop of the pin-based generator in terms of the rules.

## Main results

- `attack_queries_inverse`: the attack queries look backwards along the attacks of the men
- `mem_moveVariants`, `mem_dropTargets`: promotion, dead squares and double pawns
- `mem_computeBlockersForKing`, `mem_pinned`: the blockers are the pinned men
- `mem_generateBoardMovesNonCheck`, `mem_generateDropMoves`
-/

namespace Shogi

/-! ## Promotion and dead squares -/

theorem mustPromote_last {pt : PieceType} {c : Color} {t : Square}
    (hpt : pt = .pawn ∨ pt = .lance) :
    mustPromote pt c t = false ↔ relativeRank t.rank c ≠ 0 := by
  rcases hpt with rfl | rfl <;> exact beq_eq_false_iff_ne

theorem mustPromote_knight {c : Color} {t : Square} :
    mustPromote .knight c t = false ↔ ¬ relativeRank t.rank c ≤ 1 := decide_eq_false_iff_not

/-- Some square to move to on the empty board exists except at the end of the way of a pawn,
lance or knight. -/
theorem canLeave_iff {pt : PieceType} {c : Color} {t : Square} (hpt : pt.isValid = true) :
    CanLeave pt c t ↔ mustPromote pt c t = false := by
  have hf := t.file_lt
  have hr := t.rank_lt
  have hstay : ∀ f r (hf : f < 9) (hr : r < 9), Reach pt c t (Square.ofCoord f r hf hr) →
      CanLeave pt c t := fun f r hf hr h => ⟨_, h⟩
  obtain ⟨f, hf9, hfile⟩ : ∃ f, f < 9 ∧ (f + 1 = t.file ∨ f = t.file + 1) := by
    rcases Nat.eq_zero_or_pos t.file with h | h
    · exact ⟨1, by omega, by omega⟩
    · exact ⟨t.file - 1, by omega, by omega⟩
  obtain ⟨r, hr9, hrank⟩ : ∃ r, r < 9 ∧ (r + 1 = t.rank ∨ r = t.rank + 1) := by
    rcases Nat.eq_zero_or_pos t.rank with h | h
    · exact ⟨1, by omega, by omega⟩
    · exact ⟨t.rank - 1, by omega, by omega⟩
  cases pt with
  | none | reserved => cases hpt
  | pawn | lance =>
    rw [mustPromote_last (by simp)]
    constructor
    · rintro ⟨u, hu⟩
      have hur := u.rank_lt
      rw [reach_iff] at hu
      cases c <;> simp only [relativeRank] at hu ⊢ <;> omega
    · intro h
      cases c with
      | black =>
        simp only [relativeRank] at h
        refine hstay t.file (t.rank - 1) hf (by omega) ?_
        rw [reach_iff, Square.file_ofCoord, Square.rank_ofCoord]
        exact ⟨rfl, by omega⟩
      | white =>
        simp only [relativeRank] at h
        refine hstay t.file (t.rank + 1) hf (by omega) ?_
        rw [reach_iff, Square.file_ofCoord, Square.rank_ofCoord]
        exact ⟨rfl, by omega⟩
  | knight =>
    rw [mustPromote_knight]
    constructor
    · rintro ⟨u, hu⟩
      have hur := u.rank_lt
      rw [reach_iff] at hu
      cases c <;> simp only [relativeRank] at hu ⊢ <;> omega
    · intro h
      cases c with
      | black =>
        simp only [relativeRank] at h
        refine hstay f (t.rank - 2) hf9 (by omega) ?_
        rw [reach_iff, Square.file_ofCoord, Square.rank_ofCoord]
        exact ⟨hfile, by omega⟩
      | white =>
        simp only [relativeRank] at h
        refine hstay f (t.rank + 2) hf9 (by omega) ?_
        rw [reach_iff, Square.file_ofCoord, Square.rank_ofCoord]
        exact ⟨hfile, by omega⟩
  | gold | proPawn | proLance | proKnight | proSilver | rook =>
    refine iff_of_true (hstay f t.rank hf9 hr ?_) rfl
    rw [reach_iff, Square.file_ofCoord, Square.rank_ofCoord]
    cases c <;> simp <;> omega
  | silver | bishop | king | horse | dragon =>
    refine iff_of_true (hstay f r hf9 hr9 ?_) rfl
    rw [reach_iff, Square.file_ofCoord, Square.rank_ofCoord]
    cases c <;> simp only <;> omega

theorem canPromote_iff {pt : PieceType} {c : Color} {s t : Square} :
    canPromote pt c s t = true ↔
      pt.canPromote = true ∧ (s.inPromotionZone c = true ∨ t.inPromotionZone c = true) := by
  rw [canPromote, Bool.and_eq_true, Bool.or_eq_true]

theorem mem_moveVariants_iff {pt : PieceType} {c : Color} {s t : Square} {m : Move} :
    m ∈ moveVariants pt c s t ↔ m = .promotion s t ∧ canPromote pt c s t = true ∨
      m = .normal s t ∧ mustPromote pt c t = false := by
  rw [moveVariants, List.mem_append]
  refine or_congr ?_ ?_
  · split <;> simp_all
  · split <;> simp_all

/-- The variants of a movement are the allowed moves from its source to its destination. -/
theorem mem_moveVariants {p : Position} {pt : PieceType} {s t : Square} {m : Move}
    (hpt : pt.isValid = true) (hg : p.Goes pt s t) :
    m ∈ moveVariants pt p.turn s t ↔ p.Allowed m ∧ m.src = some s ∧ m.dst = t := by
  rw [mem_moveVariants_iff]
  constructor
  · rintro (⟨rfl, hp⟩ | ⟨rfl, hp⟩)
    · obtain ⟨h1, h2⟩ := canPromote_iff.mp hp
      exact ⟨.promotion hg h1 h2, rfl, rfl⟩
    · exact ⟨.normal hg ((canLeave_iff hpt).mpr hp), rfl, rfl⟩
  · rintro ⟨ha, hs, ht⟩
    cases ha with
    | normal goes stay =>
      cases hs
      cases ht
      cases Position.men_unique goes.man hg.man
      exact Or.inr ⟨rfl, (canLeave_iff hpt).mp stay⟩
    | promotion goes able zone =>
      cases hs
      cases ht
      cases Position.men_unique goes.man hg.man
      exact Or.inl ⟨rfl, canPromote_iff.mpr ⟨able, zone⟩⟩
    | drop => cases hs

theorem nodup_moveVariants (pt : PieceType) (c : Color) (s t : Square) :
    (moveVariants pt c s t).Nodup := by
  rw [moveVariants]
  split <;> split <;> simp

theorem src_dst_of_mem_moveVariants {pt : PieceType} {c : Color} {s t : Square} {m : Move}
    (h : m ∈ moveVariants pt c s t) : m.src = some s ∧ m.dst = t := by
  rw [moveVariants, List.mem_append] at h
  rcases h with h | h <;> split at h <;> simp_all [Move.src, Move.dst]

/-! ## Targets of drops -/

@[simp] theorem Bitboard.mem_filter {b : Bitboard} {p : Square → Bool} {t : Square} :
    t ∈ b.filter p ↔ t ∈ b ∧ p t = true := by
  rw [Bitboard.filter, mem_foldl_set_if]
  simp

private theorem mem_foldl_pawnFiles {pawns : Bitboard} {l : List Nat} {targets : Bitboard}
    {t : Square} :
    t ∈ l.foldl (fun targets f =>
      if (pawns &&& fileBB f).any then targets &&& ~~~fileBB f else targets) targets ↔
      t ∈ targets ∧ ∀ s ∈ pawns, s.file ∈ l → s.file ≠ t.file := by
  induction l generalizing targets with
  | nil => simp
  | cons f l ih =>
    rw [List.foldl_cons, ih]
    by_cases h : (pawns &&& fileBB f).any = true
    · obtain ⟨x, hx⟩ := Bitboard.any_iff.mp h
      simp only [Bitboard.mem_and, mem_fileBB] at hx
      simp only [h, if_true, Bitboard.mem_and, Bitboard.mem_compl, mem_fileBB, List.mem_cons]
      constructor
      · rintro ⟨⟨h1, h2⟩, h3⟩
        refine ⟨h1, fun s hs hf => ?_⟩
        rcases hf with hf | hf
        · rw [hf]
          exact Ne.symm h2
        · exact h3 s hs hf
      · rintro ⟨h1, h2⟩
        refine ⟨⟨h1, fun e => ?_⟩, fun s hs hf => h2 s hs (Or.inr hf)⟩
        exact h2 x hx.1 (Or.inl hx.2) (hx.2.trans e.symm)
    · simp only [h, List.mem_cons]
      have hno : ∀ s ∈ pawns, s.file ≠ f := by
        intro s hs hf
        exact h (Bitboard.any_iff.mpr ⟨s, by simp [hs, hf]⟩)
      constructor
      · rintro ⟨h1, h2⟩
        refine ⟨h1, fun s hs hf => ?_⟩
        rcases hf with hf | hf
        · exact absurd hf (hno s hs)
        · exact h2 s hs hf
      · rintro ⟨h1, h2⟩
        exact ⟨h1, fun s hs hf => h2 s hs (Or.inr hf)⟩

/-- The restrictions on drops: no dead square, no second pawn on a file. -/
theorem mem_dropTargets {us : Color} {pawns targets : Bitboard} {pt : PieceType} {t : Square}
    (hpt : pt.isHandPiece = true) : t ∈ dropTargets us pawns pt targets ↔
      t ∈ targets ∧ CanLeave pt us t ∧ (pt = .pawn → ∀ s ∈ pawns, s.file ≠ t.file) := by
  have hr := t.rank_lt
  rw [canLeave_iff (PieceType.isValid_of_isHandPiece hpt)]
  cases pt with
  | pawn =>
    rw [mustPromote_last (by simp)]
    simp only [dropTargets, reduceCtorEq, or_false, if_true, if_false, mem_foldl_pawnFiles,
      List.mem_range, Square.file_lt, forall_const, Bitboard.mem_and, Bitboard.mem_compl,
      mem_rankBB, and_assoc]
    refine and_congr_right fun _ => and_congr_left fun _ => ?_
    cases us with
    | black => exact Iff.rfl
    | white =>
      simp only [relativeRank]
      omega
  | lance =>
    rw [mustPromote_last (by simp)]
    simp only [dropTargets, reduceCtorEq, or_true, if_true, if_false, Bitboard.mem_and,
      Bitboard.mem_compl, mem_rankBB, false_imp_iff, and_true]
    refine and_congr_right fun _ => ?_
    cases us with
    | black => exact Iff.rfl
    | white =>
      simp only [relativeRank]
      omega
  | knight =>
    rw [mustPromote_knight]
    simp only [dropTargets, reduceCtorEq, or_self, if_true, if_false, false_imp_iff, and_true]
    cases us <;> simp only [Bitboard.mem_and, Bitboard.mem_compl, mem_rankBB, and_assoc,
      relativeRank] <;> refine and_congr_right fun _ => ?_ <;> omega
  | silver | bishop | rook | gold => simp [dropTargets, mustPromote]
  | _ => cases hpt

namespace ShogiBoard

/-! ## Kings and attacks -/

/-- Both kings are on the board. -/
def HasKings (b : ShogiBoard) : Prop := ∀ c, (b.kingSq c).isSome = true

section Board

variable {b : ShogiBoard} {c : Color} {s t : Square} {occ : Bitboard}

theorem HasKings.kingSq_eq (hk : b.HasKings) (c : Color) : b.kingSq c = some (b.kingSquare c) := by
  obtain ⟨k, hk⟩ := Option.isSome_iff_exists.mp (hk c)
  rw [kingSquare, hk, Option.getD_some]

theorem Consistent.kingAt (hb : b.Consistent) (hk : b.HasKings) (c : Color) :
    b.position.KingAt c (b.kingSquare c) := by
  intro s
  rw [men_iff_of_isValid rfl]
  constructor
  · intro hs
    exact Option.some.inj ((hb.king_sq c s hs).symm.trans (hk.kingSq_eq c))
  · rintro rfl
    exact hb.king_board c _ (hk.kingSq_eq c)

theorem Agree.mem_attackersTo (hb : b.Agree) : s ∈ b.attackersTo t occ c ↔
    (b.position.men c).Checks c (· ∈ occ) t s := by
  rw [ShogiBoard.mem_attackersTo, Men.Checks, ← hb.has_eq]

theorem Agree.isSquareAttacked_iff (hb : b.Agree) : b.isSquareAttacked t occ c = true ↔
    (b.position.men c).Attacked c (· ∈ occ) t := by
  rw [ShogiBoard.isSquareAttacked_iff, Men.Attacked, ← hb.has_eq]

theorem Consistent.inCheck_iff (hb : b.Consistent) (hk : b.HasKings) :
    b.inCheck c = true ↔ b.position.InCheck c := by
  rw [inCheck, hb.isSquareAttacked_iff, hb.occupied_eq, Position.inCheck_iff (hb.kingAt hk c)]

theorem Consistent.mem_checkers (hb : b.Consistent) {c : Color} :
    s ∈ b.attackersTo (b.kingSquare c) b.occupied (~~~c) ↔
      b.position.Checker c (b.kingSquare c) s := by
  rw [hb.mem_attackersTo, hb.occupied_eq]

/-- A man attacks what `PieceAttacks` says of it. -/
theorem Agree.mem_attackersTo_iff (hb : b.Agree) : s ∈ b.attackersTo t occ c ↔
    (b.board s ≠ .none ∧ (b.board s).color = c) ∧ t ∈ pieceAttacks (b.board s).type c s occ := by
  simp only [ShogiBoard.mem_attackersTo, mem_pieceAttacks, Has, hb.color_mem, hb.type_mem]
  constructor
  · rintro ⟨pt, ⟨hcolor, -, rfl⟩, hattacks⟩
    exact ⟨hcolor, hattacks⟩
  · rintro ⟨hcolor, hattacks⟩
    exact ⟨_, ⟨hcolor, hcolor.1, rfl⟩, hattacks⟩

/-- A bitboard by type is the union of the two by colour and type. -/
theorem Agree.mem_byType_iff (hb : b.Agree) {pt : PieceType} :
    s ∈ b.byType pt ↔ b.Has .black pt s ∨ b.Has .white pt s := by
  simp only [Has, hb.color_mem, hb.type_mem]
  cases (b.board s).color <;> simp

/-- The overload without a colour. -/
theorem Agree.attackersToBoth_eq (hb : b.Agree) :
    b.attackersToBoth t occ = b.attackersTo t occ .black ||| b.attackersTo t occ .white := by
  have htype : ∀ pt, b.byType pt = b.piecesOf .black pt ||| b.piecesOf .white pt := by
    intro pt
    apply Bitboard.ext_mem
    intro s
    rw [hb.mem_byType_iff, Bitboard.mem_or, mem_piecesOf, mem_piecesOf]
  simp only [attackersToBoth, attackersTo, htype, Bitboard.and_or_distrib_left]
  ac_rfl

/-- The attack queries are the inverse of the attacks of the men: the attackers of a square are the
men whose attacks contain it, the overload without a colour is the union over the colours, a square is
attacked iff it has an attacker, and a king is in check iff an enemy man attacks its square. -/
theorem attack_queries_inverse (hb : b.Consistent) :
    (∀ t occ c s, s ∈ b.attackersTo t occ c ↔
      (b.board s ≠ .none ∧ (b.board s).color = c) ∧ t ∈ pieceAttacks (b.board s).type c s occ) ∧
    (∀ t occ, b.attackersToBoth t occ =
      b.attackersTo t occ .black ||| b.attackersTo t occ .white) ∧
    (∀ t occ c, b.isSquareAttacked t occ c = true ↔ ∃ s, s ∈ b.attackersTo t occ c) ∧
    ∀ c k, b.kingSq c = some k → (b.inCheck c = true ↔
      ∃ s, (b.board s ≠ .none ∧ (b.board s).color = ~~~c) ∧
        k ∈ pieceAttacks (b.board s).type (~~~c) s b.occupied) := by
  have hattacked : ∀ t occ c, b.isSquareAttacked t occ c = true ↔
      ∃ s, s ∈ b.attackersTo t occ c := by
    intro t occ c
    rw [isSquareAttacked_eq_any, Bitboard.any_iff]
  refine ⟨fun t occ c s => hb.mem_attackersTo_iff, fun t occ => hb.attackersToBoth_eq, hattacked,
    fun c k hk => ?_⟩
  have hking : b.kingSquare c = k := by
    rw [kingSquare, hk, Option.getD_some]
  rw [inCheck, hattacked, hking]
  exact exists_congr fun s => hb.mem_attackersTo_iff

/-- A white horse gives check across the board. -/
def horseCheck : ShogiBoard :=
  new.placeAll [(.fromIdx 44, ⟨.black, .king⟩), (.fromIdx 4, ⟨.white, .horse⟩)]

theorem consistent_horseCheck : horseCheck.Consistent := by
  refine consistent_placeAll consistent_new ⟨by decide, ?_, by decide, by decide, ?_⟩
  · exact fun _ _ => rfl
  · exact fun _ _ _ => rfl

theorem attack_queries_inverse_horseCheck :
    (horseCheck.isSquareAttacked (.fromIdx 44) .zero .white = true ↔
      ∃ s, s ∈ horseCheck.attackersTo (.fromIdx 44) .zero .white) ∧
    (horseCheck.inCheck .black = true ↔
      ∃ s, (horseCheck.board s ≠ .none ∧ (horseCheck.board s).color = .white) ∧
        Square.fromIdx 44 ∈ pieceAttacks (horseCheck.board s).type .white s horseCheck.occupied) :=
  ⟨(attack_queries_inverse consistent_horseCheck).2.2.1 _ _ _,
    (attack_queries_inverse consistent_horseCheck).2.2.2 .black _ rfl⟩

/-! ## Blockers -/

theorem mem_addBlockers {k x : Square} {candidates blockers : Bitboard} :
    x ∈ b.addBlockers k candidates blockers ↔ x ∈ blockers ∨
      ∃ s ∈ candidates, x ∈ b.occupied ∧ SoleBlocker (· ∈ b.occupied) k x s := by
  have hone : ∀ s, (x ∈ betweenBB k s &&& b.occupied ∧
      (betweenBB k s &&& b.occupied).moreThanOne = false) ↔
      x ∈ b.occupied ∧ SoleBlocker (· ∈ b.occupied) k x s := by
    intro s
    rw [← Bool.not_eq_true, Bitboard.moreThanOne_iff, Bitboard.mem_and, mem_betweenBB]
    constructor
    · rintro ⟨⟨hb, ho⟩, hone⟩
      refine ⟨ho, hb, fun u hu huo => ?_⟩
      by_contra hne
      exact hone ⟨u, x, hne, by simp [mem_betweenBB, hu, huo], by simp [mem_betweenBB, hb, ho]⟩
    · rintro ⟨ho, hb, hsole⟩
      refine ⟨⟨hb, ho⟩, ?_⟩
      rintro ⟨u, v, hne, hu, hv⟩
      rw [Bitboard.mem_and, mem_betweenBB] at hu hv
      exact hne ((hsole u hu.1 hu.2).trans (hsole v hv.1 hv.2).symm)
  have hfold : ∀ (l : List Square) (blockers : Bitboard),
      x ∈ l.foldl (fun blockers pinner =>
        let between := betweenBB k pinner &&& b.occupied
        if between.any && !between.moreThanOne then blockers ||| between else blockers) blockers ↔
      x ∈ blockers ∨ ∃ s ∈ l, x ∈ b.occupied ∧ SoleBlocker (· ∈ b.occupied) k x s := by
    intro l
    induction l with
    | nil => simp
    | cons s l ih =>
      intro blockers
      rw [List.foldl_cons, ih]
      simp only [List.mem_cons, exists_eq_or_imp, ← or_assoc]
      refine or_congr_left ?_
      rw [← hone s]
      by_cases hmore : (betweenBB k s &&& b.occupied).moreThanOne = true
      · simp [hmore]
      · have hmore' : (betweenBB k s &&& b.occupied).moreThanOne = false := by
          simpa using hmore
        by_cases hany : (betweenBB k s &&& b.occupied).any = true
        · simp [hmore', hany]
        · have hx : x ∉ betweenBB k s &&& b.occupied := fun h =>
            hany (Bitboard.any_iff.mpr ⟨x, h⟩)
          simp only [hany, Bool.false_and, Bool.false_eq_true, if_false, hx, false_and, or_false]
  rw [addBlockers, hfold]
  simp

/-- The blockers are the men alone between the king and a sliding enemy. -/
theorem mem_computeBlockersForKing : s ∈ b.computeBlockersForKing c ↔
    s ∈ b.occupied ∧
      ∃ x, (b.Has (~~~c)).Pins (~~~c) (· ∈ b.occupied) (b.kingSquare c) s x := by
  have hlance : ∀ x, x ∈ lanceMaskBB (b.kingSquare c) c ↔
      Reach .lance (~~~c) x (b.kingSquare c) := by
    intro x
    rw [mem_lanceMaskBB, ← reach_symm]
  have hrook : ∀ x, x ∈ rookEffectBB (b.kingSquare c) ↔
      Reach .rook (~~~c) x (b.kingSquare c) := by
    intro x
    rw [mem_rookEffectBB c, ← reach_symm]
  have hbishop : ∀ x, x ∈ bishopEffectBB (b.kingSquare c) ↔
      Reach .bishop (~~~c) x (b.kingSquare c) := by
    intro x
    rw [mem_bishopEffectBB c, ← reach_symm]
  simp only [computeBlockersForKing, mem_addBlockers, Bitboard.mem_and, Bitboard.mem_or,
    mem_piecesOf, hlance, hrook, hbishop, Bitboard.not_mem_zero, false_or]
  constructor
  · rintro ((⟨x, ⟨hr, hx⟩, ho, hs⟩ | ⟨x, ⟨hr, hx⟩, ho, hs⟩) | ⟨x, ⟨hr, hx⟩, ho, hs⟩)
    · rcases hx with hx | hx
      · exact ⟨ho, x, _, hx, hr, hs⟩
      · exact ⟨ho, x, _, hx, Men.reach_dragon_of_rook hr, hs⟩
    · rcases hx with hx | hx
      · exact ⟨ho, x, _, hx, hr, hs⟩
      · exact ⟨ho, x, _, hx, Men.reach_horse_of_bishop hr, hs⟩
    · exact ⟨ho, x, _, hx, hr, hs⟩
  · rintro ⟨ho, x, pt, hx, hr, hs⟩
    rcases Men.Pins.slides hr hs with ⟨rfl | rfl, hr'⟩ | ⟨rfl | rfl, hr'⟩ | ⟨rfl, hr'⟩
    · exact Or.inl (Or.inl ⟨x, ⟨hr', Or.inl hx⟩, ho, hs⟩)
    · exact Or.inl (Or.inl ⟨x, ⟨hr', Or.inr hx⟩, ho, hs⟩)
    · exact Or.inl (Or.inr ⟨x, ⟨hr', Or.inl hx⟩, ho, hs⟩)
    · exact Or.inl (Or.inr ⟨x, ⟨hr', Or.inr hx⟩, ho, hs⟩)
    · exact Or.inr ⟨x, ⟨hr', hx⟩, ho, hs⟩

/-- The pinned men of the side `c`. -/
theorem Consistent.mem_pinned (hb : b.Consistent) :
    s ∈ b.computeBlockersForKing c &&& b.pieces c ↔
      (∃ pt, b.position.men c pt s) ∧ ∃ x, b.position.Pinner c (b.kingSquare c) s x := by
  rw [Bitboard.mem_and, mem_computeBlockersForKing, pieces, hb.mem_byColor, hb.has_eq,
    hb.occupied_eq, and_comm, hb.mem_occupied]
  refine and_congr_right fun ⟨pt, hs⟩ => and_iff_right (Position.occupied_of_men hs)

end Board

/-! ## The parts of the generators -/

section Generators

variable {b : ShogiBoard} {m : Move} {s t : Square}

theorem Agree.mem_pieces (hb : b.Agree) {c : Color} :
    s ∈ b.pieces c ↔ b.position.men c (b.board s).type s := by
  rw [pieces, hb.color_mem, men_iff, Piece.ext_iff]
  exact and_congr_right fun _ => (and_iff_left rfl).symm

theorem Agree.isValid_of_men (hb : b.Agree) {c : Color} {pt : PieceType}
    (h : b.position.men c pt s) : pt.isValid = true := by
  obtain ⟨hn, hs⟩ := men_iff.mp h
  have := hb.valid s hn
  rwa [hs] at this

theorem Agree.type_of_men {c : Color} {pt : PieceType} (h : b.position.men c pt s) :
    (b.board s).type = pt := by
  rw [(men_iff.mp h).2]

/-- The pseudo-legal destinations. -/
theorem Agree.mem_targets (hb : b.Agree) (hs : s ∈ b.pieces b.sideToMove) :
    t ∈ pieceAttacks (b.board s).type b.sideToMove s b.occupied &&& ~~~b.pieces b.sideToMove ↔
      b.position.Goes (b.board s).type s t := by
  rw [Bitboard.mem_and, mem_pieceAttacks, Bitboard.mem_compl, pieces, hb.mem_byColor,
    hb.occupied_eq, not_exists]
  exact ⟨fun h => ⟨hb.mem_pieces.mp hs, h.1, h.2⟩, fun h => ⟨h.attacks, h.free⟩⟩

theorem xor_kingSquare_eq (hb : b.Consistent) (hk : b.HasKings) (c : Color) :
    (· ∈ b.occupied ^^^ squareBB (b.kingSquare c)) =
      fun u => b.position.Occupied u ∧ u ≠ b.kingSquare c := by
  have hko : b.position.Occupied (b.kingSquare c) :=
    Position.occupied_of_men ((hb.kingAt hk c _).mpr rfl)
  funext u
  apply propext
  rw [Bitboard.mem_xor, hb.mem_occupied, mem_squareBB]
  by_cases hu : u = b.kingSquare c
  · subst hu
    simp [hko]
  · simp [hu]

theorem clear_kingSquare_eq (hb : b.Agree) (c : Color) :
    (· ∈ b.occupied.clear (b.kingSquare c)) =
      fun u => b.position.Occupied u ∧ u ≠ b.kingSquare c := by
  funext u
  apply propext
  rw [Bitboard.mem_clear, hb.mem_occupied]

/-- Without a check, the generator keeps exactly the safe destinations. -/
theorem mem_nonCheckTargets (hb : b.Consistent) (hk : b.HasKings)
    (hcheck : ¬ b.position.InCheck b.sideToMove) (hs : s ∈ b.pieces b.sideToMove) :
    t ∈ b.nonCheckTargets (b.computeBlockersForKing b.sideToMove &&& b.pieces b.sideToMove) s ↔
      b.position.Goes (b.board s).type s t ∧
        ¬ (b.position.play (.normal s t)).InCheck b.sideToMove := by
  have hking := hb.kingAt hk b.sideToMove
  have hman := hb.mem_pieces.mp hs
  rw [Position.inCheck_iff_checker hking, not_exists] at hcheck
  rw [nonCheckTargets]
  by_cases hsk : s = b.kingSquare b.sideToMove
  · rw [if_pos hsk, Bitboard.mem_filter, hb.mem_targets hs]
    refine and_congr_right fun goes => ?_
    have hpt : (b.board s).type = .king := Position.men_unique hman ((hking s).mpr hsk)
    rw [hpt] at goes
    rw [Bool.not_eq_true', ← Bool.not_eq_true, hb.isSquareAttacked_iff, xor_kingSquare_eq hb hk]
    subst hsk
    exact not_congr (Position.inCheck_play_king hking goes.moves_normal).symm
  · rw [if_neg hsk]
    have hpt : (b.board s).type ≠ .king := fun e => hsk ((hking s).mp (e ▸ hman))
    have hsafe : b.position.Goes (b.board s).type s t →
        (¬ (b.position.play (.normal s t)).InCheck b.sideToMove ↔
          ((∃ x, b.position.Pinner b.sideToMove (b.kingSquare b.sideToMove) s x) →
            OnLine s (b.kingSquare b.sideToMove) t)) := by
      intro goes
      refine (Position.safe_move_iff hking hpt goes.moves_normal).trans ?_
      exact and_iff_right fun x hx => absurd hx (hcheck x)
    have hpin : (b.computeBlockersForKing b.sideToMove &&& b.pieces b.sideToMove).test s = true ↔
        ∃ x, b.position.Pinner b.sideToMove (b.kingSquare b.sideToMove) s x :=
      hb.mem_pinned.trans (and_iff_right ⟨_, hman⟩)
    by_cases hp : ∃ x, b.position.Pinner b.sideToMove (b.kingSquare b.sideToMove) s x
    · rw [if_pos (hpin.mpr hp), Bitboard.mem_and, hb.mem_targets hs, mem_lineBB]
      exact and_congr_right fun goes => (forall_prop_of_true hp).symm.trans (hsafe goes).symm
    · rw [if_neg (fun h => hp (hpin.mp h)), hb.mem_targets hs]
      exact (and_iff_left_of_imp fun goes => (hsafe goes).mpr fun h => absurd h hp).symm

theorem mem_generateBoardMovesNonCheck (hb : b.Consistent) (hk : b.HasKings)
    (hcheck : ¬ b.position.InCheck b.sideToMove) :
    m ∈ b.generateBoardMovesNonCheck
        (b.computeBlockersForKing b.sideToMove &&& b.pieces b.sideToMove) ↔
      m.isDrop = false ∧ b.position.Allowed m ∧
        ¬ (b.position.play m).InCheck b.sideToMove := by
  have hking := hb.kingAt hk b.sideToMove
  simp only [generateBoardMovesNonCheck, List.mem_flatMap, Bitboard.mem_squares]
  constructor
  · rintro ⟨s, hs, t, ht, hm⟩
    obtain ⟨goes, hsafe⟩ := (mem_nonCheckTargets hb hk hcheck hs).mp ht
    obtain ⟨ha, hsrc, hdst⟩ := (mem_moveVariants (hb.isValid_of_men goes.man) goes).mp hm
    obtain ⟨pt, hmoves⟩ := ha.moves hsrc
    rw [hdst] at hmoves
    cases Position.men_unique hmoves.goes.man goes.man
    refine ⟨?_, ha, fun h => hsafe ?_⟩
    · cases m <;> first | rfl | cases hsrc
    · exact (Position.inCheck_play_congr hking hmoves goes.moves_normal).mp h
  · rintro ⟨hdrop, ha, hsafe⟩
    obtain ⟨s, hsrc⟩ : ∃ s, m.src = some s := by
      cases m with
      | normal s t => exact ⟨s, rfl⟩
      | promotion s t => exact ⟨s, rfl⟩
      | drop pt t => cases hdrop
    obtain ⟨pt, hmoves⟩ := ha.moves hsrc
    have htype := Agree.type_of_men hmoves.goes.man
    have hs : s ∈ b.pieces b.sideToMove := hb.mem_pieces.mpr (htype ▸ hmoves.goes.man)
    have goes : b.position.Goes (b.board s).type s m.dst := htype ▸ hmoves.goes
    refine ⟨s, hs, m.dst, (mem_nonCheckTargets hb hk hcheck hs).mpr ⟨goes, fun h => hsafe ?_⟩, ?_⟩
    · exact (Position.inCheck_play_congr hking hmoves hmoves.goes.moves_normal).mpr h
    · exact (mem_moveVariants (hb.isValid_of_men goes.man) goes).mpr ⟨ha, hsrc, rfl⟩

/-- The targets of a drop onto one of the given empty squares. -/
theorem mem_dropTargets_iff (hb : b.Agree) {pt : PieceType} {targets : Bitboard}
    (hpt : pt.isHandPiece = true) (hempty : ∀ t ∈ targets, b.position.man t = none) :
    (b.hand b.sideToMove).has pt = true ∧
        t ∈ dropTargets b.sideToMove (b.piecesOf b.sideToMove .pawn) pt targets ↔
      t ∈ targets ∧ b.position.Allowed (.drop pt t) := by
  rw [mem_dropTargets hpt, Hand.has_iff]
  constructor
  · rintro ⟨hheld, ht, hleave, hsingle⟩
    refine ⟨ht, .drop hpt hheld (hempty t ht) hleave fun e s hs => hsingle e s ?_⟩
    rw [mem_piecesOf, hb.has_iff]
    exact hs
  · rintro ⟨ht, ha⟩
    cases ha with
    | drop able held empty stay single =>
      refine ⟨held, ht, stay, fun e s hs => single e s ?_⟩
      rwa [mem_piecesOf, hb.has_iff] at hs

theorem mem_generateDropMoves (hb : b.Agree) :
    m ∈ b.generateDropMoves ↔ m.isDrop = true ∧ b.position.Allowed m := by
  have hempty : ∀ t, t ∈ ~~~b.occupied &&& Bitboard.all ↔ b.position.man t = none := by
    intro t
    rw [Bitboard.mem_and, Bitboard.mem_compl, hb.mem_occupied]
    simp [Position.Occupied]
  simp only [generateDropMoves, List.mem_flatMap]
  constructor
  · rintro ⟨pt, hpt, hm⟩
    rw [PieceType.mem_handTypes] at hpt
    split at hm
    · cases hm
    · rename_i hhas
      obtain ⟨t, ht, rfl⟩ := List.mem_map.mp hm
      exact ⟨rfl, ((mem_dropTargets_iff hb hpt fun t ht => (hempty t).mp ht).mp
        ⟨by simpa using hhas, Bitboard.mem_squares.mp ht⟩).2⟩
  · rintro ⟨hdrop, ha⟩
    have ha' := ha
    cases ha with
    | normal => cases hdrop
    | promotion => cases hdrop
    | @drop pt t able held empty stay single =>
      obtain ⟨hhas, ht⟩ := (mem_dropTargets_iff hb able fun t ht => (hempty t).mp ht).mpr
        ⟨(hempty t).mpr empty, ha'⟩
      refine ⟨pt, PieceType.mem_handTypes.mpr able, ?_⟩
      rw [if_neg (by simp [hhas])]
      exact List.mem_map.mpr ⟨t, Bitboard.mem_squares.mpr ht, rfl⟩

end Generators

end ShogiBoard

end Shogi
