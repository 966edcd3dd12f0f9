import ShogiEngine.Shogi.CheckGen

/-!
# The generated moves that check

The lists of `GenerateCheckingMoves` and `GenerateCheckingMovesViaFilter` against the legal moves
after which the enemy is in check.

## Main results

- `Attacker.mem_directCandidates`: the candidate tables miss no direct check
- `Attacker.mem_boardChecks_iff`, `Attacker.mem_dropChecks_iff`: checks by men and by drops
- `generateCheckingMoves_correct`: the list, without duplicates
-/

namespace Shogi

namespace ShogiBoard

section CheckMoves

variable {b : ShogiBoard} {m : Move} {s t : Square}

/-- The situation in which checks are generated. -/
structure Attacker (b : ShogiBoard) : Prop where
  consistent : b.Consistent
  kings : b.HasKings
  safe : ¬ b.position.InCheck (~~~b.sideToMove)

/-! ## Direct checks -/

/-- No own man attacks the enemy king. -/
theorem Attacker.not_attacks (h : b.Attacker) {pt : PieceType}
    (hs : b.position.men b.sideToMove pt s) :
    ¬ Attacks pt b.sideToMove b.position.Occupied s (b.kingSquare (~~~b.sideToMove)) := by
  intro ha
  refine h.safe ⟨_, (h.consistent.kingAt h.kings _ _).mpr rfl, pt, s, ?_, ?_⟩
  · rwa [Color.compl_compl]
  · rwa [Color.compl_compl]

/-- The table that `directCandidates` asks for a man of each type. -/
def CandidateFor (k : Square) (c : Color) (s : Square) : PieceType → Prop
  | .pawn => s ∈ pawnMoveCheckBB k c
  | .lance => s ∈ lanceMoveCheckBB k c
  | .knight => s ∈ knightMoveCheckBB k c
  | .silver => s ∈ silverMoveCheckBB k c
  | .gold | .proPawn | .proLance | .proKnight | .proSilver => s ∈ goldMoveCheckBB k c
  | .bishop => s ∈ bishopMoveCheckBB k c
  | .horse => s ∈ horseMoveCheckBB k
  | .rook | .dragon => True
  | _ => False

/-- The men of the side to move, type by type. -/
theorem mem_directCandidates_iff (hb : b.Agree) {k : Square} {pt : PieceType}
    (hs : b.position.men b.sideToMove pt s) :
    s ∈ b.directCandidates k ↔ CandidateFor k b.sideToMove s pt := by
  have hhas : ∀ qt, b.Has b.sideToMove qt s ↔ qt = pt := by
    intro qt
    rw [hb.has_iff]
    exact ⟨fun h => Position.men_unique h hs, fun h => h ▸ hs⟩
  simp only [directCandidates, Bitboard.mem_or, Bitboard.mem_and, mem_piecesOf, mem_golds, hhas]
  cases pt <;> simp [CandidateFor]

/-- The candidate tables miss no direct check of a man other than the king. -/
theorem Attacker.mem_directCandidates (h : b.Attacker)
    (goes : b.position.Goes (b.board s).type s t) (hking : (b.board s).type ≠ .king)
    (hm : m ∈ moveVariants (b.board s).type b.sideToMove s t)
    (ha : Reach (m.arrives (b.board s).type) b.sideToMove t (b.kingSquare (~~~b.sideToMove))) :
    s ∈ b.directCandidates (b.kingSquare (~~~b.sideToMove)) := by
  have hb := h.consistent
  have hno := h.not_attacks goes.man
  have hvalid := hb.isValid_of_men goes.man
  have hsk : s ≠ b.kingSquare (~~~b.sideToMove) := by
    rintro rfl
    exact Position.not_men_other goes.man ((hb.kingAt h.kings _ _).mpr rfl)
  -- the man arrives unpromoted, or promoted with a square in the zone
  have harr : Reach (b.board s).type b.sideToMove t (b.kingSquare (~~~b.sideToMove)) ∨
      InZone b.sideToMove s t ∧ (b.board s).type.canPromote = true ∧
        Reach (b.board s).type.promote b.sideToMove t (b.kingSquare (~~~b.sideToMove)) := by
    rcases mem_moveVariants_iff.mp hm with ⟨rfl, hp⟩ | ⟨rfl, -⟩
    · obtain ⟨h1, h2⟩ := canPromote_iff.mp hp
      exact Or.inr ⟨h2, h1, ha⟩
    · exact Or.inl ha
  have hreach := goes.attacks.1
  rw [mem_directCandidates_iff hb.toAgree goes.man]
  clear hm ha
  generalize b.kingSquare (~~~b.sideToMove) = k at *
  generalize (b.board s).type = pt at *
  cases pt with
  | none | reserved => cases hvalid
  | king => exact absurd rfl hking
  | rook | dragon => trivial
  | pawn => exact mem_pawnMoveCheckBB hsk hreach (harr.imp_right fun h => ⟨h.1, h.2.2⟩)
  | lance =>
    refine mem_lanceMoveCheckBB hsk (fun hp => hno ⟨reach_lance_of_pawn hp, ?_⟩) hreach
      (harr.imp_right fun h => ⟨h.1, h.2.2⟩)
    have hstep : PieceType.pawn.isStepper = true := rfl
    exact clear_of_isStepper hstep hp
  | knight => exact mem_knightMoveCheckBB hreach (harr.imp_right fun h => ⟨h.1, h.2.2⟩)
  | silver =>
    exact mem_silverMoveCheckBB hsk (fun hr => hno ((attacks_iff_reach rfl).mpr hr)) hreach
      (harr.imp_right fun h => ⟨h.1, h.2.2⟩)
  | bishop => exact mem_bishopMoveCheckBB hsk hreach (harr.imp_right fun h => ⟨h.1, h.2.2⟩)
  | horse =>
    refine mem_horseMoveCheckBB hsk hreach (harr.resolve_right fun h => ?_)
    exact Bool.false_ne_true h.2.1
  | gold =>
    refine mem_goldMoveCheckBB hsk (fun hr => hno ((attacks_iff_reach rfl).mpr hr)) hreach
      (harr.resolve_right fun h => ?_)
    exact Bool.false_ne_true h.2.1
  | _ =>
    refine mem_goldMoveCheckBB hsk (fun hr => hno ((attacks_iff_reach rfl).mpr hr)) hreach
      (harr.resolve_right fun h => ?_)
    exact Bool.false_ne_true h.2.1

/-! ## Checks by men on the board -/

/-- `our_blockers`: the own men that shield the enemy king from an own man. -/
theorem Attacker.mem_ourBlockers (h : b.Attacker) {pt : PieceType}
    (hs : b.position.men b.sideToMove pt s) :
    s ∈ b.computeBlockersForKing (~~~b.sideToMove) &&& b.pieces b.sideToMove ↔
      b.position.Discovers (b.kingSquare (~~~b.sideToMove)) s := by
  have hb := h.consistent
  rw [Bitboard.mem_and, mem_computeBlockersForKing, pieces, hb.mem_byColor, hb.has_eq,
    hb.occupied_eq, hb.mem_occupied, Color.compl_compl]
  constructor
  · exact fun hx => hx.1.2
  · exact fun hx => ⟨⟨Position.occupied_of_men hs, hx⟩, pt, hs⟩

/-- A board move checks by the man that arrives or by a line that it opens. -/
theorem Attacker.inCheck_play_iff (h : b.Attacker) {pt : PieceType}
    (hm : b.position.Moves m pt s t) :
    (b.position.play m).InCheck (~~~b.sideToMove) ↔
      Attacks (m.arrives pt) b.sideToMove (· ∈ b.occupied.clear s) t
          (b.kingSquare (~~~b.sideToMove)) ∨
        s ∈ b.computeBlockersForKing (~~~b.sideToMove) &&& b.pieces b.sideToMove ∧
          t ∉ lineBB (b.kingSquare (~~~b.sideToMove)) s := by
  have hb := h.consistent
  have hocc : (· ∈ b.occupied.clear s) = fun u => b.position.Occupied u ∧ u ≠ s := by
    funext u
    rw [Bitboard.mem_clear, hb.mem_occupied]
  have hline : t ∈ lineBB (b.kingSquare (~~~b.sideToMove)) s ↔
      OnLine s (b.kingSquare (~~~b.sideToMove)) t := mem_lineBB.trans LineSystem.onLine_comm
  rw [hocc, h.mem_ourBlockers hm.goes.man, hline]
  exact Position.inCheck_play_enemy (hb.kingAt h.kings _) h.safe hm

/-- The king never checks directly. -/
theorem Attacker.ne_king_of_attacks (h : b.Attacker)
    (goes : b.position.Goes (b.board s).type s t)
    (hm : m ∈ moveVariants (b.board s).type b.sideToMove s t)
    (hsafe : ¬ (b.position.play m).InCheck b.sideToMove)
    (ha : Reach (m.arrives (b.board s).type) b.sideToMove t (b.kingSquare (~~~b.sideToMove))) :
    (b.board s).type ≠ .king := by
  intro hking
  rw [hking] at goes hm ha
  have hnormal : m = .normal s t := by
    refine (mem_moveVariants_iff.mp hm).elim (fun hp => ?_) And.left
    cases (canPromote_iff.mp hp.2).1
  subst hnormal
  have hk := h.consistent.kingAt h.kings
  exact Position.not_reach_king_of_safe (hk _) (hk _) goes.moves_normal
    (goes.moves_normal.dst_ne_king (hk _) h.safe) hsafe ha

/-- A man of the side to move on `s` goes to `t` with a legal move that checks. -/
def ChecksBy (b : ShogiBoard) (m : Move) (s t : Square) : Prop :=
  b.position.Goes (b.board s).type s t ∧
    m ∈ moveVariants (b.board s).type b.sideToMove s t ∧
    ¬ (b.position.play m).InCheck b.sideToMove ∧ (b.position.play m).InCheck (~~~b.sideToMove)

theorem moves_of_mem_moveVariants (goes : b.position.Goes (b.board s).type s t)
    (hm : m ∈ moveVariants (b.board s).type b.sideToMove s t) :
    b.position.Moves m (b.board s).type s t := by
  rcases mem_moveVariants_iff.mp hm with ⟨rfl, hp⟩ | ⟨rfl, -⟩
  · exact goes.moves_promotion (canPromote_iff.mp hp).1
  · exact goes.moves_normal

/-- The moves pushed for one candidate are its direct checks. -/
theorem Attacker.mem_emitDirect (h : b.Attacker) (hcheck : ¬ b.position.InCheck b.sideToMove)
    (hs : s ∈ b.pieces b.sideToMove) {targets : Bitboard}
    (htargets : ∀ t ∈ targets, b.position.Goes (b.board s).type s t) :
    m ∈ (if (b.directCandidates (b.kingSquare (~~~b.sideToMove))).test s then
        b.emitDirect b.pinned (b.kingSquare (~~~b.sideToMove)) s (b.board s).type targets
      else []) ↔
      ∃ t ∈ targets, b.ChecksBy m s t ∧
        Attacks (m.arrives (b.board s).type) b.sideToMove (· ∈ b.occupied.clear s) t
          (b.kingSquare (~~~b.sideToMove)) := by
  have hdirect := ShogiBoard.mem_emitDirect (m := m) (k := b.kingSquare (~~~b.sideToMove))
    h.consistent h.kings hcheck hs htargets
  constructor
  · intro hm
    split at hm
    · obtain ⟨t, ht, hv, hsafe, ha⟩ := hdirect.mp hm
      have goes := htargets t ht
      exact ⟨t, ht, ⟨goes, hv, hsafe,
        (h.inCheck_play_iff (moves_of_mem_moveVariants goes hv)).mpr (Or.inl ha)⟩, ha⟩
    · cases hm
  · rintro ⟨t, ht, ⟨goes, hv, hsafe, -⟩, ha⟩
    have hking := h.ne_king_of_attacks goes hv hsafe ha.1
    have hcand : (b.directCandidates (b.kingSquare (~~~b.sideToMove))).test s = true :=
      h.mem_directCandidates goes hking hv ha.1
    rw [if_pos hcand]
    exact hdirect.mpr ⟨t, ht, hv, hsafe, ha⟩

/-- A man that shields the enemy king checks off the line with every move, on it only directly. -/
theorem Attacker.mem_emitDiscovered (h : b.Attacker)
    (hcheck : ¬ b.position.InCheck b.sideToMove)
    (hs : s ∈ b.computeBlockersForKing (~~~b.sideToMove) &&& b.pieces b.sideToMove) :
    m ∈ b.emitDiscovered b.pinned (b.kingSquare (~~~b.sideToMove)) s ↔
      ∃ t, b.ChecksBy m s t := by
  have hb := h.consistent
  have hown := (Bitboard.mem_and.mp hs).2
  have htargets : ∀ t, t ∈ pieceAttacks (b.board s).type b.sideToMove s b.occupied &&&
      ~~~b.pieces b.sideToMove ↔ b.position.Goes (b.board s).type s t :=
    fun t => hb.mem_targets hown
  rw [emitDiscovered, List.mem_append, List.mem_flatMap,
    h.mem_emitDirect hcheck hown fun t ht => (htargets t).mp (Bitboard.mem_and.mp ht).1]
  simp only [Bitboard.mem_squares]
  constructor
  · rintro (⟨t, ht, hm⟩ | ⟨t, -, hm, -⟩)
    · obtain ⟨ht, hline⟩ := Bitboard.mem_and.mp ht
      have goes := (htargets t).mp ht
      obtain ⟨hv, hsafe⟩ := (mem_addVariants hb h.kings hcheck hown goes).mp hm
      exact ⟨t, goes, hv, hsafe, (h.inCheck_play_iff (moves_of_mem_moveVariants goes hv)).mpr
        (Or.inr ⟨hs, Bitboard.mem_compl.mp hline⟩)⟩
    · exact ⟨t, hm⟩
  · rintro ⟨t, goes, hv, hsafe, hchecks⟩
    have ht := (htargets t).mpr goes
    by_cases hline : t ∈ lineBB (b.kingSquare (~~~b.sideToMove)) s
    · -- along the line nothing is opened
      have ha := ((h.inCheck_play_iff (moves_of_mem_moveVariants goes hv)).mp hchecks).resolve_right
        fun hx => hx.2 hline
      exact Or.inr ⟨t, Bitboard.mem_and.mpr ⟨ht, hline⟩, ⟨goes, hv, hsafe, hchecks⟩, ha⟩
    · exact Or.inl ⟨t, Bitboard.mem_and.mpr ⟨ht, Bitboard.mem_compl.mpr hline⟩,
        (mem_addVariants hb h.kings hcheck hown goes).mpr ⟨hv, hsafe⟩⟩

theorem Attacker.mem_boardChecks_iff (h : b.Attacker)
    (hcheck : ¬ b.position.InCheck b.sideToMove) :
    m ∈ b.boardChecks b.pinned ↔ ∃ s t, b.ChecksBy m s t := by
  have hb := h.consistent
  have hcand : ∀ s ∈ b.directCandidates (b.kingSquare (~~~b.sideToMove)),
      s ∈ b.pieces b.sideToMove := by
    intro s hs
    rw [pieces, hb.mem_byColor]
    simp only [directCandidates, Bitboard.mem_or, Bitboard.mem_and, mem_piecesOf, mem_golds,
      hb.has_iff] at hs
    grind
  rw [boardChecks, List.mem_append, List.mem_flatMap, List.mem_flatMap]
  simp only [Bitboard.mem_squares]
  constructor
  · rintro (⟨s, hs, hm⟩ | ⟨s, hs, hm⟩)
    · exact ⟨s, (h.mem_emitDiscovered hcheck hs).mp hm⟩
    · obtain ⟨hs, -⟩ := Bitboard.mem_and.mp hs
      have hown := hcand s hs
      have htest : (b.directCandidates (b.kingSquare (~~~b.sideToMove))).test s = true := hs
      rw [← if_pos (t := b.emitDirect _ _ _ _ _) (e := []) htest] at hm
      obtain ⟨t, -, hm, -⟩ := (h.mem_emitDirect hcheck hown
        fun t ht => (hb.mem_targets hown).mp ht).mp hm
      exact ⟨s, t, hm⟩
  · rintro ⟨s, t, hm⟩
    have hown := hb.mem_pieces.mpr hm.1.man
    by_cases hs : s ∈ b.computeBlockersForKing (~~~b.sideToMove) &&& b.pieces b.sideToMove
    · exact Or.inl ⟨s, hs, (h.mem_emitDiscovered hcheck hs).mpr ⟨t, hm⟩⟩
    · have ha := ((h.inCheck_play_iff (moves_of_mem_moveVariants hm.1 hm.2.1)).mp
        hm.2.2.2).resolve_right fun hx => hs hx.1
      have hking := h.ne_king_of_attacks hm.1 hm.2.1 hm.2.2.1 ha.1
      have hdirect : (b.directCandidates (b.kingSquare (~~~b.sideToMove))).test s = true :=
        h.mem_directCandidates hm.1 hking hm.2.1 ha.1
      refine Or.inr ⟨s, Bitboard.mem_and.mpr ⟨hdirect, Bitboard.mem_compl.mpr hs⟩, ?_⟩
      have hpush := (h.mem_emitDirect hcheck hown fun t ht => (hb.mem_targets hown).mp ht).mpr
        ⟨t, (hb.mem_targets hown).mpr hm.1, hm, ha⟩
      rwa [if_pos hdirect] at hpush

/-! ## Checks by drops -/

/-- The drop targets of the check generator are those of the rules. -/
theorem mem_checkDropTargets (hb : b.Agree) {pt : PieceType} (hpt : pt.isHandPiece = true) :
    (b.hand b.sideToMove).has pt = true ∧ t ∈ b.checkDropTargets pt ↔
      b.position.Allowed (.drop pt t) := by
  have hr := t.rank_lt
  have hempty : t ∉ b.occupied ↔ b.position.man t = none := by
    rw [hb.mem_occupied, Position.Occupied, not_not]
  have htargets : t ∈ b.checkDropTargets pt ↔ b.position.man t = none ∧
      CanLeave pt b.sideToMove t ∧
      (pt = .pawn → ∀ s, b.position.men b.sideToMove .pawn s → s.file ≠ t.file) := by
    rw [canLeave_iff (PieceType.isValid_of_isHandPiece hpt), ← hempty]
    cases pt with
    | pawn =>
      rw [mustPromote_last (Or.inl rfl)]
      simp only [checkDropTargets, if_true, Bitboard.mem_andNot, Bitboard.mem_or,
        Bitboard.mem_orOver, Bitboard.not_mem_zero, false_or, mem_piecesOf, hb.has_iff,
        mem_fileBB, Bitboard.mem_compl, forall_const, not_or, not_exists, not_and]
      rw [and_comm]
      refine and_congr_right fun _ => and_congr ?_ (forall_congr' fun s => ?_)
      · cases b.sideToMove with
        | black => simp only [mem_rankBB, relativeRank]
        | white =>
          simp only [mem_rankBB, relativeRank]
          omega
      · exact imp_congr_right fun _ => not_congr eq_comm
    | lance =>
      rw [mustPromote_last (Or.inr rfl)]
      simp only [checkDropTargets, reduceCtorEq, if_true, if_false, Bitboard.mem_andNot,
        Bitboard.mem_compl, false_imp_iff, and_true]
      rw [and_comm]
      refine and_congr_right fun _ => ?_
      cases b.sideToMove with
      | black => simp only [mem_rankBB, relativeRank]
      | white =>
        simp only [mem_rankBB, relativeRank]
        omega
    | knight =>
      rw [mustPromote_knight]
      simp only [checkDropTargets, reduceCtorEq, if_true, if_false, Bitboard.mem_andNot,
        Bitboard.mem_compl, Bitboard.mem_or, false_imp_iff, and_true]
      rw [and_comm]
      refine and_congr_right fun _ => ?_
      cases b.sideToMove <;> simp only [mem_rankBB, relativeRank] <;> omega
    | silver | bishop | rook | gold => simp [checkDropTargets, mustPromote]
    | _ => cases hpt
  rw [htargets, Hand.has_iff]
  constructor
  · rintro ⟨held, empty, stay, single⟩
    exact .drop hpt held empty stay single
  · intro ha
    cases ha with
    | drop able held empty stay single => exact ⟨held, empty, stay, single⟩

theorem Attacker.mem_addDropChecks (h : b.Attacker)
    (hcheck : ¬ b.position.InCheck b.sideToMove) {pt : PieceType} (hpt : pt.isHandPiece = true)
    {checkZone : Bitboard}
    (hzone : ∀ t, t ∈ checkZone ↔
      Attacks pt b.sideToMove b.position.Occupied t (b.kingSquare (~~~b.sideToMove))) :
    m ∈ b.addDropChecks b.pinned pt checkZone ↔ ∃ t, m = .drop pt t ∧ b.position.Legal m ∧
      (b.position.play m).InCheck (~~~b.sideToMove) := by
  have hb := h.consistent
  have hking := hb.kingAt h.kings
  -- without a check every drop leaves the own king safe
  have hsafe : ∀ {t}, b.position.Allowed (.drop pt t) →
      ¬ (b.position.play (.drop pt t)).InCheck b.sideToMove := by
    intro t ha
    cases ha with
    | drop able held empty stay single =>
      refine (Position.safe_drop_iff (hking _) empty able).mpr fun x hx => absurd ?_ hcheck
      exact (Position.inCheck_iff_checker (hking _)).mpr ⟨x, hx⟩
  have hlegal : ∀ {t}, b.position.Allowed (.drop pt t) →
      (b.isLegal (.drop pt t) b.pinned = true ↔ b.position.Legal (.drop pt t)) := by
    intro t ha
    rw [isLegal, isLegalWith_drop hb h.kings, Position.legal_iff_answer, and_iff_right ha]
    refine Iff.trans ?_ (and_iff_right (hsafe ha)).symm
    exact forall_congr' fun hd => hasLegalEvasion_doMoveForMovegen_iff hb h.kings ha hd
  have hgives : ∀ {t}, b.position.Allowed (.drop pt t) →
      ((b.position.play (.drop pt t)).InCheck (~~~b.sideToMove) ↔ t ∈ checkZone) := by
    intro t ha
    rw [hzone]
    cases ha with
    | drop able held empty stay single =>
      exact Position.inCheck_drop_enemy (hking _) empty able h.safe
  have htargets : ∀ {t}, _ := fun {t} => mem_checkDropTargets (t := t) hb.toAgree hpt
  rw [addDropChecks]
  constructor
  · intro hm
    split at hm
    · cases hm
    · rename_i hhas
      obtain ⟨t, ht, hm⟩ := List.mem_flatMap.mp hm
      rw [Bitboard.mem_squares, Bitboard.mem_and] at ht
      have ha := htargets.mp ⟨by simpa using hhas, ht.1⟩
      split at hm
      · rename_i hleg
        cases List.mem_singleton.mp hm
        exact ⟨t, rfl, (hlegal ha).mp hleg, (hgives ha).mpr ht.2⟩
      · cases hm
  · rintro ⟨t, rfl, hleg, hchecks⟩
    have ha := hleg.allowed
    obtain ⟨hhas, ht⟩ := htargets.mpr ha
    rw [if_neg (by simp [hhas])]
    refine List.mem_flatMap.mpr ⟨t, ?_, ?_⟩
    · rw [Bitboard.mem_squares, Bitboard.mem_and]
      exact ⟨ht, (hgives ha).mp hchecks⟩
    · rw [if_pos ((hlegal ha).mpr hleg)]
      exact List.mem_singleton.mpr rfl

/-- The zones of `dropChecks` by type. -/
def dropZone (b : ShogiBoard) : PieceType → Bitboard
  | .pawn => pawnCheckBB (b.kingSquare (~~~b.sideToMove)) b.sideToMove
  | .lance => lanceEffect (~~~b.sideToMove) (b.kingSquare (~~~b.sideToMove)) b.occupied
  | .knight => knightCheckBB (b.kingSquare (~~~b.sideToMove)) b.sideToMove
  | .silver => silverCheckBB (b.kingSquare (~~~b.sideToMove)) b.sideToMove
  | .gold => goldCheckBB (b.kingSquare (~~~b.sideToMove)) b.sideToMove
  | .bishop => bishopEffect (b.kingSquare (~~~b.sideToMove)) b.occupied
  | _ => rookEffect (b.kingSquare (~~~b.sideToMove)) b.occupied

theorem dropChecks_eq {pinned : Bitboard} : b.dropChecks pinned =
    [PieceType.pawn, .lance, .knight, .silver, .gold, .bishop, .rook].flatMap fun pt =>
      b.addDropChecks pinned pt (b.dropZone pt) := by
  simp only [dropChecks, dropZone, List.flatMap_cons, List.flatMap_nil, List.append_nil,
    List.append_assoc]

theorem mem_dropZone (hb : b.Agree) {pt : PieceType} (hpt : pt.isHandPiece = true) :
    t ∈ b.dropZone pt ↔ Attacks pt b.sideToMove b.position.Occupied t
      (b.kingSquare (~~~b.sideToMove)) := by
  rw [← hb.occupied_eq]
  cases pt with
  | pawn =>
    change t ∈ zoneOf (b.kingSquare (~~~b.sideToMove)) b.sideToMove .pawn ↔ _
    exact mem_zoneOf rfl
  | knight =>
    change t ∈ zoneOf (b.kingSquare (~~~b.sideToMove)) b.sideToMove .knight ↔ _
    exact mem_zoneOf rfl
  | silver =>
    change t ∈ zoneOf (b.kingSquare (~~~b.sideToMove)) b.sideToMove .silver ↔ _
    exact mem_zoneOf rfl
  | gold =>
    change t ∈ zoneOf (b.kingSquare (~~~b.sideToMove)) b.sideToMove .gold ↔ _
    exact mem_zoneOf rfl
  | lance => exact mem_lanceEffect_iff
  | bishop => exact mem_bishopEffect_iff
  | rook => exact mem_rookEffect_iff
  | _ => cases hpt

theorem Attacker.mem_dropChecks_iff (h : b.Attacker)
    (hcheck : ¬ b.position.InCheck b.sideToMove) : m ∈ b.dropChecks b.pinned ↔
      m.isDrop = true ∧ b.position.Legal m ∧ (b.position.play m).InCheck (~~~b.sideToMove) := by
  have hpush : ∀ {pt : PieceType}, pt.isHandPiece = true →
      (m ∈ b.addDropChecks b.pinned pt (b.dropZone pt) ↔ ∃ t, m = .drop pt t ∧
        b.position.Legal m ∧ (b.position.play m).InCheck (~~~b.sideToMove)) :=
    fun hpt => h.mem_addDropChecks hcheck hpt fun _ => mem_dropZone h.consistent.toAgree hpt
  have htypes : ∀ pt : PieceType, pt ∈ [PieceType.pawn, .lance, .knight, .silver, .gold, .bishop,
      .rook] ↔ pt.isHandPiece = true := by decide
  rw [dropChecks_eq, List.mem_flatMap]
  constructor
  · rintro ⟨pt, hpt, hm⟩
    obtain ⟨t, rfl, hm⟩ := (hpush ((htypes pt).mp hpt)).mp hm
    exact ⟨rfl, hm⟩
  · rintro ⟨hdrop, hm⟩
    cases m with
    | normal | promotion => cases hdrop
    | drop pt t =>
      have hpt : pt.isHandPiece = true := by
        cases hm.1.allowed with
        | drop able => exact able
      exact ⟨pt, (htypes pt).mpr hpt, (hpush hpt).mpr ⟨t, rfl, hm⟩⟩

/-! ## The filter -/

/-- A board move passes the filter iff it checks. -/
theorem Attacker.filterGivesCheck_move (h : b.Attacker) (ha : b.position.Allowed m)
    (hm : b.position.Moves m (b.board s).type s t) (hfilter : b.filterGivesCheck m =
      if (pieceAttacks (m.arrives (b.board s).type) b.sideToMove t
          ((b.occupied.clear s).set t)).test (b.kingSquare (~~~b.sideToMove)) then true
      else if (b.computeBlockersForKing (~~~b.sideToMove) &&& b.pieces b.sideToMove).test s then
        (b.doMoveForMovegen m).inCheck (b.doMoveForMovegen m).sideToMove
      else false) :
    b.filterGivesCheck m = true ↔ (b.position.play m).InCheck (~~~b.sideToMove) := by
  have hdirect : (pieceAttacks (m.arrives (b.board s).type) b.sideToMove t
      ((b.occupied.clear s).set t)).test (b.kingSquare (~~~b.sideToMove)) = true ↔
      Attacks (m.arrives (b.board s).type) b.sideToMove (· ∈ b.occupied.clear s) t
        (b.kingSquare (~~~b.sideToMove)) := by
    refine mem_pieceAttacks.trans (and_congr_right fun _ => ?_)
    refine LineSystem.clear_congr_of_ne fun u hu _ => ?_
    rw [Bitboard.mem_set]
    exact or_iff_left hu
  have hafter : (b.doMoveForMovegen m).inCheck (b.doMoveForMovegen m).sideToMove = true ↔
      (b.position.play m).InCheck (~~~b.sideToMove) :=
    inCheck_doMoveInternal_iff h.consistent h.kings h.safe ha
  have hblocker : (b.computeBlockersForKing (~~~b.sideToMove) &&& b.pieces b.sideToMove).test s =
      true ↔ s ∈ b.computeBlockersForKing (~~~b.sideToMove) &&& b.pieces b.sideToMove := Iff.rfl
  have hchecks := h.inCheck_play_iff hm
  rw [hfilter]
  split
  · rename_i hd
    exact iff_of_true rfl (hchecks.mpr (Or.inl (hdirect.mp hd)))
  · rename_i hd
    split
    · exact hafter
    · rename_i hs
      refine iff_of_false Bool.false_ne_true fun hx => ?_
      exact (hchecks.mp hx).elim (fun hd' => hd (hdirect.mpr hd')) fun hs' => hs hs'.1

theorem Attacker.filterGivesCheck_iff (h : b.Attacker) (ha : b.position.Allowed m) :
    b.filterGivesCheck m = true ↔ (b.position.play m).InCheck (~~~b.sideToMove) := by
  have hb := h.consistent
  cases m with
  | drop pt t =>
    cases ha with
    | drop able held empty stay single =>
      refine Iff.trans ?_ (Position.inCheck_drop_enemy (hb.kingAt h.kings _) empty able h.safe).symm
      refine mem_pieceAttacks.trans (and_congr_right fun _ => ?_)
      refine LineSystem.clear_congr_of_ne fun u hu _ => ?_
      rw [Bitboard.mem_set, hb.mem_occupied]
      exact or_iff_left hu
  | normal s t =>
    obtain ⟨pt, hm⟩ := ha.moves rfl
    cases Agree.type_of_men hm.goes.man
    exact h.filterGivesCheck_move ha hm rfl
  | promotion s t =>
    obtain ⟨pt, hm⟩ := ha.moves rfl
    cases Agree.type_of_men hm.goes.man
    exact h.filterGivesCheck_move ha hm rfl

theorem Attacker.mem_viaFilter_iff (h : b.Attacker) : m ∈ b.generateCheckingMovesViaFilter ↔
    b.position.Legal m ∧ (b.position.play m).InCheck (~~~b.sideToMove) := by
  rw [generateCheckingMovesViaFilter, List.mem_filter,
    mem_generateLegalMoves h.consistent h.kings]
  exact and_congr_right fun hm => h.filterGivesCheck_iff hm.allowed

/-! ## The whole list -/

theorem Attacker.mem_nonCheck_iff (h : b.Attacker)
    (hcheck : ¬ b.position.InCheck b.sideToMove) : m ∈ b.generateCheckingMovesNonCheck ↔
      b.position.Legal m ∧ (b.position.play m).InCheck (~~~b.sideToMove) := by
  have hb := h.consistent
  rw [generateCheckingMovesNonCheck, List.mem_append, h.mem_boardChecks_iff hcheck,
    h.mem_dropChecks_iff hcheck]
  constructor
  · rintro (⟨s, t, goes, hv, hsafe, hchecks⟩ | ⟨-, hm⟩)
    · obtain ⟨ha, hsrc, -⟩ := (mem_moveVariants (hb.isValid_of_men goes.man) goes).mp hv
      refine ⟨Position.legal_iff_answer.mpr ⟨ha, hsafe, ?_⟩, hchecks⟩
      rintro ⟨t', k, rfl, -⟩
      cases hsrc
    · exact hm
  · rintro ⟨hlegal, hchecks⟩
    by_cases hdrop : m.isDrop = true
    · exact Or.inr ⟨hdrop, hlegal, hchecks⟩
    · obtain ⟨s, hsrc⟩ := Option.ne_none_iff_exists'.mp (mt isDrop_iff.mpr hdrop)
      obtain ⟨pt, hm⟩ := hlegal.allowed.moves hsrc
      cases Agree.type_of_men hm.goes.man
      have goes := hm.goes
      exact Or.inl ⟨s, m.dst, goes,
        (mem_moveVariants (hb.isValid_of_men goes.man) goes).mpr ⟨hlegal.allowed, hsrc, rfl⟩,
        hlegal.not_inCheck, hchecks⟩

/-- The legal moves that check. -/
theorem Attacker.mem_generateCheckingMoves (h : b.Attacker) : m ∈ b.generateCheckingMoves ↔
    b.position.Legal m ∧ (b.position.play m).InCheck (~~~b.sideToMove) := by
  rw [generateCheckingMoves]
  split
  · exact h.mem_viaFilter_iff
  · rename_i hcheck
    exact h.mem_nonCheck_iff (mt (h.consistent.inCheck_iff h.kings).mpr hcheck)

end CheckMoves

/-! ## No check occurs twice -/

section Nodup

variable {b : ShogiBoard} {m : Move} {pinned targets : Bitboard} {k s t : Square}
  {pt : PieceType}

theorem addIfLegal_sublist : List.Sublist (b.addIfLegal pinned s t m) [m] := by
  rw [addIfLegal]
  split <;> split <;> simp

/-- What is pushed for one source and one destination is part of the variants. -/
theorem pushVariants_sublist {x y : Bool} :
    List.Sublist ((if x then b.addIfLegal pinned s t (.promotion s t) else []) ++
      (if y then b.addIfLegal pinned s t (.normal s t) else [])) [.promotion s t, .normal s t] := by
  have hif : ∀ (z : Bool) m, List.Sublist (if z then b.addIfLegal pinned s t m else []) [m] := by
    intro z m
    cases z
    · exact List.nil_sublist _
    · exact addIfLegal_sublist
  exact (hif x _).append (hif y _)

theorem src_dst_of_mem_pushVariants {l : MoveList}
    (hl : List.Sublist l [.promotion s t, .normal s t]) (hm : m ∈ l) :
    m.src = some s ∧ m.dst = t := by
  have hm := hl.subset hm
  simp only [List.mem_cons, List.not_mem_nil, or_false] at hm
  rcases hm with rfl | rfl <;> exact ⟨rfl, rfl⟩

theorem nodup_pushVariants {l : MoveList} (hl : List.Sublist l [.promotion s t, .normal s t]) :
    l.Nodup := hl.nodup (by simp)

theorem addVariants_sublist : List.Sublist (b.addVariants pinned s t pt fun _ => true)
    [.promotion s t, .normal s t] := by
  simp only [addVariants, if_true, Bool.and_true]
  exact pushVariants_sublist

/-- A loop over destinations pushes moves of one man without repetition. -/
theorem nodup_overTargets {f : Square → MoveList}
    (hf : ∀ t, List.Sublist (f t) [.promotion s t, .normal s t]) :
    (targets.squares.flatMap f).Nodup :=
  nodup_flatMap_of_key Move.dst (Bitboard.nodup_squares _) (fun t _ => nodup_pushVariants (hf t))
    fun t _ hm => (src_dst_of_mem_pushVariants (hf t) hm).2

theorem mem_overTargets {f : Square → MoveList}
    (hf : ∀ t, List.Sublist (f t) [.promotion s t, .normal s t])
    (hm : m ∈ targets.squares.flatMap f) : m.src = some s ∧ m.dst ∈ targets := by
  obtain ⟨t, ht, hm⟩ := List.mem_flatMap.mp hm
  obtain ⟨hsrc, hdst⟩ := src_dst_of_mem_pushVariants (hf t) hm
  exact ⟨hsrc, hdst ▸ Bitboard.mem_squares.mp ht⟩

theorem nodup_emitDirect : (b.emitDirect pinned k s pt targets).Nodup := by
  simp only [emitDirect]
  exact nodup_overTargets fun t => pushVariants_sublist

theorem of_mem_emitDirect (hm : m ∈ b.emitDirect pinned k s pt targets) :
    m.src = some s ∧ m.dst ∈ targets := by
  simp only [emitDirect] at hm
  obtain ⟨hsrc, hdst⟩ := mem_overTargets (fun t => pushVariants_sublist) hm
  exact ⟨hsrc, (Bitboard.mem_and.mp hdst).1⟩

/-- A move on the line is not among those off it. -/
theorem nodup_emitDiscovered : (b.emitDiscovered pinned k s).Nodup := by
  rw [emitDiscovered]
  refine List.Nodup.append (nodup_overTargets fun t => addVariants_sublist) ?_ fun m h h' => ?_
  · split
    · exact nodup_emitDirect
    · exact List.nodup_nil
  · obtain ⟨-, hoff⟩ := mem_overTargets (fun t => addVariants_sublist) h
    split at h'
    · obtain ⟨-, hon⟩ := of_mem_emitDirect h'
      exact Bitboard.mem_compl.mp (Bitboard.mem_and.mp hoff).2 (Bitboard.mem_and.mp hon).2
    · cases h'

theorem src_of_mem_emitDiscovered (hm : m ∈ b.emitDiscovered pinned k s) : m.src = some s := by
  rw [emitDiscovered, List.mem_append] at hm
  rcases hm with hm | hm
  · exact (mem_overTargets (fun t => addVariants_sublist) hm).1
  · split at hm
    · exact (of_mem_emitDirect hm).1
    · cases hm

theorem nodup_boardChecks : (b.boardChecks pinned).Nodup := by
  rw [boardChecks]
  have hsrc : ∀ {m : Move} {s}, m.src = some s → m.src.getD (b.kingSquare .black) = s := by
    intro m s h
    rw [h, Option.getD_some]
  refine List.Nodup.append ?_ ?_ fun m h h' => ?_
  · exact nodup_flatMap_of_key (fun m => m.src.getD (b.kingSquare .black))
      (Bitboard.nodup_squares _) (fun s _ => nodup_emitDiscovered)
      fun s m hm => hsrc (src_of_mem_emitDiscovered hm)
  · exact nodup_flatMap_of_key (fun m => m.src.getD (b.kingSquare .black))
      (Bitboard.nodup_squares _) (fun s _ => nodup_emitDirect)
      fun s m hm => hsrc (of_mem_emitDirect hm).1
  · -- the sources of the two loops are disjoint
    obtain ⟨s, hs, h⟩ := List.mem_flatMap.mp h
    obtain ⟨s', hs', h'⟩ := List.mem_flatMap.mp h'
    cases (src_of_mem_emitDiscovered h).symm.trans (of_mem_emitDirect h').1
    rw [Bitboard.mem_squares] at hs hs'
    exact Bitboard.mem_compl.mp (Bitboard.mem_and.mp hs').2 hs

theorem eq_drop_of_mem_addDropChecks (hm : m ∈ b.addDropChecks pinned pt targets) :
    ∃ t, m = .drop pt t := by
  rw [addDropChecks] at hm
  split at hm
  · cases hm
  · obtain ⟨t, -, hm⟩ := List.mem_flatMap.mp hm
    split at hm
    · exact ⟨t, List.mem_singleton.mp hm⟩
    · cases hm

theorem nodup_addDropChecks : (b.addDropChecks pinned pt targets).Nodup := by
  rw [addDropChecks]
  split
  · exact List.nodup_nil
  · refine nodup_flatMap_of_key Move.dst (Bitboard.nodup_squares _) (fun t _ => ?_)
      fun t m hm => ?_
    · split
      · exact List.nodup_singleton _
      · exact List.nodup_nil
    · split at hm
      · rw [List.mem_singleton.mp hm]
        rfl
      · cases hm

private def typeOfDrop : Move → PieceType
  | .drop pt _ => pt
  | _ => .none

theorem nodup_dropChecks : (b.dropChecks pinned).Nodup := by
  rw [dropChecks_eq]
  refine nodup_flatMap_of_key typeOfDrop (by decide) (fun pt _ => nodup_addDropChecks)
    fun pt m hm => ?_
  obtain ⟨t, rfl⟩ := eq_drop_of_mem_addDropChecks hm
  rfl

theorem nodup_generateCheckingMoves : b.generateCheckingMoves.Nodup := by
  rw [generateCheckingMoves]
  split
  · exact nodup_generateLegalMoves.filter _
  · refine nodup_boardChecks.append nodup_dropChecks fun m h h' => ?_
    rw [dropChecks_eq] at h'
    obtain ⟨pt, -, h'⟩ := List.mem_flatMap.mp h'
    obtain ⟨t, rfl⟩ := eq_drop_of_mem_addDropChecks h'
    rw [boardChecks, List.mem_append, List.mem_flatMap, List.mem_flatMap] at h
    rcases h with ⟨s, -, h⟩ | ⟨s, -, h⟩
    · cases src_of_mem_emitDiscovered h
    · cases (of_mem_emitDirect h).1

end Nodup

/-! ## The generator against the legal moves -/

end ShogiBoard

end Shogi
