import ShogiEngine.Rules.Dominance
import ShogiEngine.Shogi.MateProbe

/-!
# Mate in one

Where no king is in check, `FindMateInOne` returns the first of the moves that it tries after which it counts
no answer. How this compares with the legal moves that mate.

## Main definitions

- `Mates`: the move leaves the enemy in check without a legal move
- `LooksMateAfter`, `CutsPinAfter`, `DeceivesAfter`: what is counted after a move, and where it goes wrong
- `mateTries`: the moves in the order in which they are tried

## Main results

- `Quiet.findMateInOneNonCheck_eq`: the first try after which no answer is counted
- `findMateInOne_sound_iff`: it is a legal move that mates iff it cuts no pin
- `findMateInOne_eq_none_iff`: when no mate is missed
-/

namespace Shogi

namespace ShogiBoard

/-! ## After a move -/

/-- The enemy is in check and has no legal move. -/
def Mates (b : ShogiBoard) (m : Move) : Prop :=
  (b.doMove m).inCheck (~~~b.sideToMove) = true ∧ (b.doMove m).generateLegalMoves = []

instance (b : ShogiBoard) (m : Move) : Decidable (b.Mates m) :=
  inferInstanceAs (Decidable (_ ∧ _))

/-- No answer to the move is counted. -/
def LooksMateAfter (b : ShogiBoard) (m : Move) : Prop :=
  (b.doMove m).position.LooksMate (b.kingSquare (~~~b.sideToMove)) m.dst

/-- The man that moved stands in the way of a pin, and the man that it unpins can meet the check. -/
def CutsPinAfter (b : ShogiBoard) (m : Move) : Prop :=
  (b.doMove m).position.CutsPin (b.kingSquare (~~~b.sideToMove)) m.dst

/-- A counted answer to the move is not legal. -/
def DeceivesAfter (b : ShogiBoard) (m : Move) : Prop :=
  (b.doMove m).position.Deceives (b.kingSquare (~~~b.sideToMove)) m.dst

/-- A consistent board with both kings, none in check. -/
structure Quiet (b : ShogiBoard) : Prop extends b.Attacker where
  unchecked : ¬b.position.InCheck b.sideToMove

section After

variable {b : ShogiBoard} {q : Position} {m : Move} {pt : PieceType} {s t : Square}

/-- A move leaves the hand of the enemy as it is. -/
theorem hand_doMove_enemy : (b.doMove m).hand (~~~b.sideToMove) = b.hand (~~~b.sideToMove) := by
  have hmove : ∀ s t p, (b.doBoardMove true s t p).hand (~~~b.sideToMove) = b.hand (~~~b.sideToMove) := by
    intro s t p
    rw [hand_doBoardMove, hand_doCapture]
    split
    · rfl
    · exact Function.update_of_ne (Color.compl_ne _) _ _
  rw [doMove, hand_doMoveInternal]
  cases m with
  | drop pt t => exact Function.update_of_ne (Color.compl_ne _) _ _
  | normal s t => exact hmove s t false
  | promotion s t => exact hmove s t true

/-- The position after a move as the answers see it. -/
structure Answers (b : ShogiBoard) (m : Move) (q : Position) : Prop where
  man : q.man = (b.position.play m).man
  turn : q.turn = ~~~b.sideToMove
  hand : ∀ xt, q.hand q.turn xt = (b.hand q.turn).count xt

theorem Agree.answers_doMove (hb : b.Agree) (ha : b.position.Allowed m) : b.Answers m (b.doMove m).position where
  man := man_doMoveInternal hb (canPlay_of_allowed ha)
  turn := sideToMove_doMove (m := m)
  hand xt := by
    have hturn : (b.doMove m).position.turn = ~~~b.sideToMove := sideToMove_doMove (m := m)
    rw [hturn]
    exact congrArg (Hand.count · xt) hand_doMove_enemy

theorem board_mateProbeCaptureRemoval : (b.mateProbeCaptureRemoval t).board = b.board := by
  rw [mateProbeCaptureRemoval]
  split <;> rfl

theorem hand_mateProbeCaptureRemoval : (b.mateProbeCaptureRemoval t).hand = b.hand := by
  rw [mateProbeCaptureRemoval]
  split <;> rfl

/-- The man that is captured is taken off the bitboards. -/
theorem Shows.mateProbeCaptureRemoval {M : Color → Men} (h : b.Shows M)
    (ht : ∀ c pt, M c pt t ↔ b.position.men c pt t) : (b.mateProbeCaptureRemoval t).Shows fun c => (M c).without t := by
  rw [ShogiBoard.mateProbeCaptureRemoval]
  by_cases hnone : (b.board t).isNone = true
  · rw [if_pos hnone]
    refine h.congr ?_
    funext c pt u
    refine propext (and_iff_left_of_imp fun hu => ?_).symm
    rintro rfl
    exact (men_iff.mp ((ht c pt).mp hu)).1 (Piece.isNone_iff.mp hnone)
  · rw [if_neg hnone]
    exact h.clearMan ((ht _ _).mpr (men_iff.mpr ⟨fun e => hnone (Piece.isNone_iff.mpr e), rfl⟩))

/-! ## The board of the test after a move -/

/-- After a board move. -/
theorem Attacker.bare_of_moves (h : b.Attacker) (hq : b.Answers m q)
    (hm : b.position.Moves m (b.board s).type s t) :
    ((b.mateProbeSourceRemoval b.sideToMove (b.board s).type s).mateProbeCaptureRemoval t).Bare q
      (m.arrives (b.board s).type) (b.kingSquare (~~~b.sideToMove)) t := by
  have hb := h.consistent
  have hk := hb.kingAt h.kings (~~~b.sideToMove)
  have hmen : q.men = (b.position.play m).men := Position.men_congr hq.man
  have htk := hm.dst_ne_king hk h.safe
  have hsource : (b.mateProbeSourceRemoval b.sideToMove (b.board s).type s).Shows fun c =>
      (b.position.men c).without s := hb.toAgree.shows.clearMan hm.goes.man
  have hshows := hsource.mateProbeCaptureRemoval (t := t) fun c pt => and_iff_left hm.goes.ne.symm
  refine ⟨hshows.congr ?_, ?_, ?_, ?_, ?_, ?_⟩
  · funext c qt u
    apply propext
    rw [hmen]
    by_cases hut : u = t
    · exact iff_of_false (fun hu => hu.2 hut) fun hu => hu.2 hut
    · refine and_congr_left fun _ => ?_
      rcases Color.eq_or_eq_compl b.sideToMove c with rfl | rfl
      · exact (hm.men_of_ne hut).symm
      · rw [show (b.position.play m).men (~~~b.sideToMove) = _ from hm.enemies]
        refine and_congr_right fun hu => iff_of_true ?_ hut
        rintro rfl
        exact Position.not_men_other hm.goes.man hu
  · rw [hq.turn, Color.compl_compl, hmen]
    exact hm.men_dst.mpr rfl
  · rw [hq.turn]
    intro u
    rw [hmen]
    exact hm.enemy_king hk htk u
  · rw [hq.turn, kingSquare_mateProbeCaptureRemoval]
    rfl
  · intro xt u hu
    rw [hq.turn, hmen, show (b.position.play m).men (~~~b.sideToMove) = _ from hm.enemies] at hu
    rw [board_mateProbeCaptureRemoval]
    exact Agree.type_of_men hu.1
  · intro xt
    rw [hand_mateProbeCaptureRemoval, hq.hand]
    rfl

/-- After a drop. -/
theorem Attacker.bare_of_drop (h : b.Attacker) (hq : b.Answers (.drop pt t) q) (hpt : pt.isHandPiece = true)
    (ht : b.position.man t = none) :
    (b.mateProbeCaptureRemoval t).Bare q pt (b.kingSquare (~~~b.sideToMove)) t := by
  have hb := h.consistent
  have hk := hb.kingAt h.kings (~~~b.sideToMove)
  have hmen : q.men = (b.position.play (.drop pt t)).men := Position.men_congr hq.man
  have hshows := hb.toAgree.shows.mateProbeCaptureRemoval (t := t) fun c pt => Iff.rfl
  have hother : (b.position.play (.drop pt t)).men (~~~b.sideToMove) = b.position.men (~~~b.sideToMove) :=
    Position.men_drop_other ht (Color.compl_ne _)
  refine ⟨hshows.congr ?_, ?_, ?_, ?_, ?_, ?_⟩
  · funext c qt u
    refine propext (and_congr_left fun hut => ?_)
    rw [hmen]
    rcases Color.eq_or_eq_compl b.sideToMove c with rfl | rfl
    · exact ((Position.men_drop_own ht).trans (or_iff_left fun hu => hut hu.1)).symm
    · rw [hother]
  · rw [hq.turn, Color.compl_compl, hmen]
    exact (Position.men_drop_own ht).mpr (Or.inr ⟨rfl, rfl⟩)
  · rw [hq.turn]
    intro u
    rw [hmen]
    exact Position.king_drop ht hpt hk u
  · rw [hq.turn, kingSquare_mateProbeCaptureRemoval]
  · intro xt u hu
    rw [hq.turn, hmen, hother] at hu
    rw [board_mateProbeCaptureRemoval]
    exact Agree.type_of_men hu
  · intro xt
    rw [hand_mateProbeCaptureRemoval, hq.hand]

/-- The test of a drop. -/
theorem Attacker.isMateAfterMateProbe_drop_iff (h : b.Attacker) (ha : b.position.Allowed (.drop pt t)) :
    b.isMateAfterMateProbe b.sideToMove pt t = true ↔ b.LooksMateAfter (.drop pt t) := by
  have hq := h.consistent.toAgree.answers_doMove ha
  cases ha with
  | drop able held empty stay single => exact isMateAfterMateProbe_iff hq.turn (h.bare_of_drop hq able empty)

/-- The test of a board move. -/
theorem Attacker.isMateAfterMateProbe_moves_iff (h : b.Attacker) (ha : b.position.Allowed m)
    (hm : b.position.Moves m (b.board s).type s t) :
    (b.mateProbeSourceRemoval b.sideToMove (b.board s).type s).isMateAfterMateProbe b.sideToMove
      (m.arrives (b.board s).type) t = true ↔ b.LooksMateAfter m := by
  have hq := h.consistent.toAgree.answers_doMove ha
  rw [LooksMateAfter, hm.dst]
  exact isMateAfterMateProbe_iff hq.turn (h.bare_of_moves hq hm)

end After

/-! ## The moves that are tried -/

/-- The drops that may check. -/
def dropTries (b : ShogiBoard) (type : PieceType) : MoveList :=
  let us := b.sideToMove
  if (b.hand us).has type then
    (zoneOf (b.kingSquare (~~~us)) us type &&& ~~~b.occupied).squares.map (.drop type)
  else []

/-- The moves of the men of one type that may check. -/
def boardTries (b : ShogiBoard) (type : PieceType) : MoveList :=
  let us := b.sideToMove
  let kingSquare := b.kingSquare (~~~us)
  let candidates := b.directCandidates kingSquare ||| b.computeBlockersForKing (~~~us) &&& b.pieces us
  (b.piecesOf us type &&& candidates).squares.flatMap fun src =>
    (b.mateTargets b.pinned type src).squares.flatMap fun dst => moveVariants type us src dst

/-- The types that are dropped, in order. -/
def dropOrder : List PieceType := [.rook, .lance, .bishop, .gold, .silver, .knight]

/-- The moves in the order in which `FindMateInOneNonCheckImpl` tries them. -/
def mateTries (b : ShogiBoard) : MoveList :=
  dropOrder.flatMap b.dropTries ++ kPieceOrder.flatMap b.boardTries

section Tries

variable {b : ShogiBoard} {m : Move} {pt : PieceType} {k s t : Square} {c : Color}

/-- The zone of a man that can be dropped has the squares from which it attacks on an empty board. -/
theorem mem_zoneOf_iff_reach (hpt : pt.isHandPiece = true) : t ∈ zoneOf k c pt ↔ Reach pt c t k := by
  have hstep : pt.isStepper = true → (t ∈ zoneOf k c pt ↔ Reach pt c t k) := by
    intro hst
    have hzone : t ∈ zoneOf k c pt ↔ Attacks pt c (fun _ => False) t k := mem_zoneOf hst
    exact hzone.trans (attacks_iff_reach hst)
  cases pt with
  | pawn | knight | silver | gold => exact hstep rfl
  | lance =>
    change t ∈ lanceCheckBB k c ↔ _
    rw [lanceCheckBB, mem_checkTable, mem_lanceMaskBB]
  | bishop =>
    change t ∈ bishopCheckBB k ↔ _
    rw [bishopCheckBB, mem_checkTable, mem_bishopEffectBB c]
  | rook =>
    change t ∈ rookEffectBB k ↔ _
    rw [mem_rookEffectBB (~~~c)]
    exact reach_symm
  | _ => cases hpt

theorem isHandPiece_of_mem_dropOrder (hpt : pt ∈ dropOrder) : pt.isHandPiece = true := by
  revert pt
  decide

theorem mem_dropOrder (hpt : pt.isHandPiece = true) (hpawn : pt ≠ .pawn) : pt ∈ dropOrder := by
  revert pt
  decide

theorem mem_kPieceOrder (hpt : pt.isValid = true) : pt ∈ kPieceOrder := by
  revert pt
  decide

theorem Agree.mem_dropTries (hb : b.Agree) (hpt : pt.isHandPiece = true) : m ∈ b.dropTries pt ↔
    0 < b.position.hand b.sideToMove pt ∧ ∃ t, m = .drop pt t ∧ b.position.man t = none ∧
      Reach pt b.sideToMove t (b.kingSquare (~~~b.sideToMove)) := by
  have hheld : (b.hand b.sideToMove).has pt = true ↔ 0 < b.position.hand b.sideToMove pt := Hand.has_iff _ _
  have hmem : ∀ t, t ∈ zoneOf (b.kingSquare (~~~b.sideToMove)) b.sideToMove pt &&& ~~~b.occupied ↔
      b.position.man t = none ∧ Reach pt b.sideToMove t (b.kingSquare (~~~b.sideToMove)) := by
    intro t
    rw [Bitboard.mem_and, mem_zoneOf_iff_reach hpt, Bitboard.mem_compl, hb.mem_occupied, Position.Occupied, not_not,
      and_comm]
  rw [dropTries]
  split
  · rename_i hhas
    rw [and_iff_right (hheld.mp hhas), List.mem_map]
    simp only [Bitboard.mem_squares, hmem]
    exact exists_congr fun t => ⟨fun ⟨ht, e⟩ => ⟨e.symm, ht⟩, fun ⟨e, ht⟩ => ⟨ht, e.symm⟩⟩
  · rename_i hhas
    exact iff_of_false List.not_mem_nil fun hm => hhas (hheld.mpr hm.1)

/-- The drops that are tried are the legal ones of other men than pawns onto squares of the zone. -/
theorem Quiet.mem_dropTries (h : b.Quiet) (hpt : pt ∈ dropOrder) : m ∈ b.dropTries pt ↔
    ∃ t, m = .drop pt t ∧ b.position.Legal m ∧ Reach pt b.sideToMove t (b.kingSquare (~~~b.sideToMove)) := by
  have hb := h.consistent
  have hking : b.position.KingAt b.position.turn (b.kingSquare b.sideToMove) := hb.kingAt h.kings _
  have hhand := isHandPiece_of_mem_dropOrder hpt
  have hpawn : pt ≠ .pawn := by
    rintro rfl
    exact absurd hpt (by decide)
  rw [hb.toAgree.mem_dropTries hhand]
  constructor
  · rintro ⟨hheld, t, rfl, hempty, hreach⟩
    have ha : b.position.Allowed (.drop pt t) :=
      .drop hhand hheld hempty ⟨_, hreach⟩ fun e => absurd e hpawn
    have hsafe := (Position.safe_drop_iff hking hempty hhand).mpr fun x hx =>
      absurd ((Position.inCheck_iff_checker hking).mpr ⟨x, hx⟩) h.unchecked
    refine ⟨t, rfl, Position.legal_iff_answer.mpr ⟨ha, hsafe, ?_⟩, hreach⟩
    rintro ⟨t', k', he, -⟩
    exact absurd (Move.drop.inj he).1 hpawn
  · rintro ⟨t, rfl, hlegal, hreach⟩
    cases hlegal.allowed with
    | drop able held empty stay single => exact ⟨held, t, rfl, empty, hreach⟩

/-- The targets of a man are those of its legal moves. -/
theorem Quiet.mem_mateTargets (h : b.Quiet) (hs : s ∈ b.pieces b.sideToMove) :
    t ∈ b.mateTargets b.pinned (b.board s).type s ↔
      b.position.Goes (b.board s).type s t ∧ ¬(b.position.play (.normal s t)).InCheck b.sideToMove := by
  have hb := h.consistent
  have hking := hb.kingAt h.kings b.sideToMove
  have hman := hb.mem_pieces.mp hs
  have htargets : b.mateTargets b.pinned (b.board s).type s = b.nonCheckTargets b.pinned s := by
    by_cases hsk : s = b.kingSquare b.sideToMove
    · have htype : (b.board s).type = .king := Position.men_unique hman ((hking s).mpr hsk)
      have hfree : b.pinned.test s ≠ true := by
        intro hpin
        obtain ⟨-, x, qt, -, -, hsole⟩ := hb.mem_pinned.mp hpin
        exact hsole.1.ne_left hsk
      have hlegal : ∀ t, b.isLegal (.normal s t) b.pinned =
          !b.isSquareAttacked t (b.occupied ^^^ squareBB (b.kingSquare b.sideToMove)) (~~~b.sideToMove) := by
        intro t
        simp only [isLegal, isLegalWith, if_pos hsk, Bitboard.empty, isSquareAttacked_eq_any]
      rw [mateTargets, nonCheckTargets, if_pos htype, if_neg hfree, if_pos hsk]
      simp only [hlegal]
    · have htype : (b.board s).type ≠ .king := fun e => hsk ((hking s).mp (e ▸ hman))
      rw [mateTargets, nonCheckTargets, if_neg htype, if_neg hsk]
  rw [htargets]
  exact mem_nonCheckTargets hb h.kings h.unchecked hs

/-- The board moves that are tried are the legal ones of the candidates. -/
theorem Quiet.mem_boardTries (h : b.Quiet) : m ∈ b.boardTries pt ↔
    ∃ s, m.src = some s ∧ b.position.men b.sideToMove pt s ∧ b.position.Legal m ∧
      (s ∈ b.directCandidates (b.kingSquare (~~~b.sideToMove)) ∨
        s ∈ b.computeBlockersForKing (~~~b.sideToMove) &&& b.pieces b.sideToMove) := by
  have hb := h.consistent
  rw [boardTries, List.mem_flatMap]
  simp only [Bitboard.mem_squares, List.mem_flatMap, Bitboard.mem_and (a := b.piecesOf _ _), Bitboard.mem_or,
    mem_piecesOf, hb.has_iff]
  refine exists_congr fun s => ?_
  constructor
  · rintro ⟨⟨hman, hcand⟩, t, ht, hm⟩
    obtain rfl := Agree.type_of_men hman
    obtain ⟨goes, hsafe⟩ := (h.mem_mateTargets (hb.mem_pieces.mpr hman)).mp ht
    obtain ⟨ha, hsrc, rfl⟩ := (mem_moveVariants (hb.isValid_of_men hman) goes).mp hm
    obtain ⟨qt, hmoves⟩ := ha.moves hsrc
    obtain rfl := Position.men_unique hmoves.goes.man goes.man
    refine ⟨hsrc, hman, Position.legal_of_src ha hsrc ?_, hcand⟩
    exact fun hx => hsafe ((Position.inCheck_play_congr (hb.kingAt h.kings _) goes.moves_normal hmoves).mpr hx)
  · rintro ⟨hsrc, hman, hlegal, hcand⟩
    obtain rfl := Agree.type_of_men hman
    obtain ⟨qt, hmoves⟩ := hlegal.allowed.moves hsrc
    obtain rfl := Position.men_unique hmoves.goes.man hman
    refine ⟨⟨hman, hcand⟩, m.dst, (h.mem_mateTargets (hb.mem_pieces.mpr hman)).mpr ⟨hmoves.goes, fun hx => ?_⟩, ?_⟩
    · exact hlegal.not_inCheck
        ((Position.inCheck_play_congr (hb.kingAt h.kings _) hmoves.goes.moves_normal hmoves).mp hx)
    · exact (mem_moveVariants (hb.isValid_of_men hman) hmoves.goes).mpr ⟨hlegal.allowed, hsrc, rfl⟩

theorem Quiet.mem_mateTries (h : b.Quiet) : m ∈ b.mateTries ↔
    (∃ pt ∈ dropOrder, ∃ t, m = .drop pt t ∧ b.position.Legal m ∧
      Reach pt b.sideToMove t (b.kingSquare (~~~b.sideToMove))) ∨
    ∃ pt ∈ kPieceOrder, ∃ s, m.src = some s ∧ b.position.men b.sideToMove pt s ∧ b.position.Legal m ∧
      (s ∈ b.directCandidates (b.kingSquare (~~~b.sideToMove)) ∨
        s ∈ b.computeBlockersForKing (~~~b.sideToMove) &&& b.pieces b.sideToMove) := by
  rw [mateTries, List.mem_append, List.mem_flatMap, List.mem_flatMap]
  refine or_congr (exists_congr fun pt => and_congr_right fun hpt => h.mem_dropTries hpt) ?_
  exact exists_congr fun pt => and_congr_right fun _ => h.mem_boardTries

/-- What is tried is legal, and no pawn is dropped. -/
theorem Quiet.legal_of_mem_mateTries (h : b.Quiet) (hm : m ∈ b.mateTries) : b.position.Legal m := by
  rcases h.mem_mateTries.mp hm with ⟨pt, -, t, -, hlegal, -⟩ | ⟨pt, -, s, -, -, hlegal, -⟩
  · exact hlegal
  · exact hlegal

/-- Every legal check is tried, but for the drop of a pawn. -/
theorem Quiet.mem_mateTries_of_check (h : b.Quiet) (hlegal : b.position.Legal m)
    (hcheck : (b.position.play m).InCheck (~~~b.sideToMove)) (hpawn : ∀ t, m ≠ .drop .pawn t) : m ∈ b.mateTries := by
  have hb := h.consistent
  have ha := hlegal.allowed
  rw [h.mem_mateTries]
  cases hsrc : m.src with
  | none =>
    cases ha with
    | normal => cases hsrc
    | promotion => cases hsrc
    | @drop pt t able held empty stay single =>
      have hattack := (Position.inCheck_drop_enemy (hb.kingAt h.kings _) empty able h.safe).mp hcheck
      exact Or.inl ⟨pt, mem_dropOrder able fun e => hpawn t (e ▸ rfl), t, rfl, hlegal, hattack.1⟩
  | some s =>
    obtain ⟨pt, hmoves⟩ := ha.moves hsrc
    obtain rfl := Agree.type_of_men hmoves.goes.man
    have hvalid := hb.isValid_of_men hmoves.goes.man
    have hvariant := (mem_moveVariants hvalid hmoves.goes).mpr ⟨ha, hsrc, rfl⟩
    refine Or.inr ⟨_, mem_kPieceOrder hvalid, s, rfl, hmoves.goes.man, hlegal, ?_⟩
    rcases (h.inCheck_play_iff hmoves).mp hcheck with hdirect | ⟨hblocker, -⟩
    · have hking := h.ne_king_of_attacks hmoves.goes hvariant hlegal.not_inCheck hdirect.1
      exact Or.inl (h.mem_directCandidates hmoves.goes hking hvariant hdirect.1)
    · exact Or.inr hblocker

end Tries

/-! ## The first try that looks like a mate -/

/-- A list is searched alike by functions that agree on its members. -/
theorem findSome?_congr {α β : Type*} {f g : α → Option β} {l : List α} (h : ∀ x ∈ l, f x = g x) :
    l.findSome? f = l.findSome? g := by
  induction l with
  | nil => rfl
  | cons x l ih =>
    rw [List.findSome?_cons, List.findSome?_cons, h x List.mem_cons_self, ih fun y hy => h y (List.mem_cons_of_mem _ hy)]

theorem findSome?_cons_or {α β : Type*} {f : α → Option β} {x : α} {l : List α} :
    (x :: l).findSome? f = (f x).or (l.findSome? f) := by
  rw [List.findSome?_cons]
  cases f x <;> rfl

section Find

variable {b : ShogiBoard} {m : Move} {pt : PieceType} {s t : Square} {P : Move → Bool}

theorem Quiet.tryDrops_eq (h : b.Quiet) (hP : ∀ m ∈ b.mateTries, P m = true ↔ b.LooksMateAfter m)
    (hpt : pt ∈ dropOrder) :
    b.tryDrops pt (zoneOf (b.kingSquare (~~~b.sideToMove)) b.sideToMove pt) = (b.dropTries pt).find? P := by
  by_cases hhas : (b.hand b.sideToMove).has pt = true
  · have hdrops : b.dropTries pt = (zoneOf (b.kingSquare (~~~b.sideToMove)) b.sideToMove pt &&&
        ~~~b.occupied).squares.map (.drop pt) := if_pos hhas
    rw [tryDrops, hhas, hdrops, List.find?_map]
    refine congrArg (Option.map (Move.drop pt)) (List.find?_congr fun t ht => ?_)
    have htry : .drop pt t ∈ b.dropTries pt := hdrops ▸ List.mem_map_of_mem ht
    obtain ⟨-, -, hlegal, -⟩ := (h.mem_dropTries hpt).mp htry
    have hmem : .drop pt t ∈ b.mateTries :=
      List.mem_append_left _ (List.mem_flatMap.mpr ⟨pt, hpt, htry⟩)
    exact Bool.eq_iff_iff.mpr ((h.isMateAfterMateProbe_drop_iff hlegal.allowed).trans (hP _ hmem).symm)
  · have hdrops : b.dropTries pt = [] := if_neg hhas
    rw [Bool.not_eq_true] at hhas
    rw [tryDrops, hhas, hdrops]
    rfl

/-- The variants that cannot check are not tested; the others are. -/
theorem Quiet.tryVariant_eq (h : b.Quiet) (ha : b.position.Allowed m) (hm : b.position.Moves m (b.board s).type s t)
    (hP : P m = true ↔ b.LooksMateAfter m) :
    (b.mateProbeSourceRemoval b.sideToMove (b.board s).type s).tryVariant t
      ((b.computeBlockersForKing (~~~b.sideToMove) &&& b.pieces b.sideToMove).test s &&
        !(lineBB s (b.kingSquare (~~~b.sideToMove))).test t)
      (m.arrives (b.board s).type) m = if P m then some m else none := by
  have hb := h.consistent
  have hq := hb.toAgree.answers_doMove ha
  have htest := h.isMateAfterMateProbe_moves_iff ha hm
  have hcheck : b.LooksMateAfter m → (b.position.play m).InCheck (~~~b.sideToMove) := by
    intro hmate
    have hincheck := hmate.check
    rw [hq.turn] at hincheck
    exact (Position.inCheck_congr hq.man).mp hincheck
  have hsource : (b.mateProbeSourceRemoval b.sideToMove (b.board s).type s).Shows fun c =>
      (b.position.men c).without s := hb.toAgree.shows.clearMan hm.goes.man
  have hdirect : (pieceAttacks (m.arrives (b.board s).type) b.sideToMove t
      (((b.mateProbeSourceRemoval b.sideToMove (b.board s).type s).occupied.set t).clear
        (b.kingSquare (~~~b.sideToMove)))).test (b.kingSquare (~~~b.sideToMove)) = true ↔
      Attacks (m.arrives (b.board s).type) b.sideToMove (· ∈ b.occupied.clear s) t
        (b.kingSquare (~~~b.sideToMove)) := by
    refine mem_pieceAttacks.trans (and_congr_right fun _ => LineSystem.clear_congr_of_ne fun u hut huk => ?_)
    rw [Bitboard.mem_clear, and_iff_left huk, Bitboard.mem_set, or_iff_left hut, hsource.mem_occupied,
      Bitboard.mem_clear, hb.mem_occupied, Position.occupied_iff]
    simp only [Men.without, exists_and_right]
  change (if _ then none else if _ then some m else none) = _
  split
  · -- a move that does not check cannot look like a mate
    rename_i hguard
    rw [Bool.and_eq_true, Bool.not_eq_true', Bool.not_eq_true', ← Bool.not_eq_true, ← Bool.not_eq_true] at hguard
    have hno : P m ≠ true := by
      intro hp
      rcases (h.inCheck_play_iff hm).mp (hcheck (hP.mp hp)) with ha | ⟨hs, hline⟩
      · exact hguard.1 (hdirect.mpr ha)
      · refine hguard.2 ((Bool.and_eq_true _ _).mpr ⟨hs, ?_⟩)
        rw [Bool.not_eq_true', ← Bool.not_eq_true]
        exact fun hon => hline (mem_lineBB.mpr (LineSystem.onLine_comm.mp (mem_lineBB.mp hon)))
    rw [if_neg hno]
  · exact if_congr (htest.trans hP.symm) rfl rfl

/-- The moves of one man. -/
theorem Quiet.findSome_tryVariant (h : b.Quiet) (hP : ∀ m ∈ b.mateTries, P m = true ↔ b.LooksMateAfter m)
    (htries : ∀ m ∈ moveVariants (b.board s).type b.sideToMove s t, m ∈ b.mateTries) {disc : Bool}
    (hdisc : disc = ((b.computeBlockersForKing (~~~b.sideToMove) &&& b.pieces b.sideToMove).test s &&
      !(lineBB s (b.kingSquare (~~~b.sideToMove))).test t))
    (goes : b.position.Goes (b.board s).type s t) :
    ((if canPromote (b.board s).type b.sideToMove s t then
        (b.mateProbeSourceRemoval b.sideToMove (b.board s).type s).tryVariant t disc (b.board s).type.promote
          (.promotion s t)
      else none) <|>
      if !mustPromote (b.board s).type b.sideToMove t then
        (b.mateProbeSourceRemoval b.sideToMove (b.board s).type s).tryVariant t disc (b.board s).type (.normal s t)
      else none) = (moveVariants (b.board s).type b.sideToMove s t).find? P := by
  have hvariant : ∀ m ∈ moveVariants (b.board s).type b.sideToMove s t,
      (b.mateProbeSourceRemoval b.sideToMove (b.board s).type s).tryVariant t disc (m.arrives (b.board s).type) m =
        if P m then some m else none := by
    intro m hm
    rw [hdisc]
    exact h.tryVariant_eq (h.legal_of_mem_mateTries (htries m hm)).allowed (moves_of_mem_moveVariants goes hm)
      (hP m (htries m hm))
  generalize (b.mateProbeSourceRemoval b.sideToMove (b.board s).type s).tryVariant t disc = f at hvariant ⊢
  have hpromo : (if canPromote (b.board s).type b.sideToMove s t then
      f (b.board s).type.promote (.promotion s t) else none) =
      (if canPromote (b.board s).type b.sideToMove s t then [Move.promotion s t] else []).find? P := by
    split
    · rename_i hp
      rw [List.find?_singleton]
      exact hvariant (.promotion s t) (mem_moveVariants_iff.mpr (Or.inl ⟨rfl, hp⟩))
    · rfl
  have hnormal : (if !mustPromote (b.board s).type b.sideToMove t then f (b.board s).type (.normal s t) else none) =
      (if !mustPromote (b.board s).type b.sideToMove t then [Move.normal s t] else []).find? P := by
    split
    · rename_i hp
      rw [Bool.not_eq_true'] at hp
      rw [List.find?_singleton]
      exact hvariant (.normal s t) (mem_moveVariants_iff.mpr (Or.inr ⟨rfl, hp⟩))
    · rfl
  rw [hpromo, hnormal, moveVariants, List.find?_append, Option.orElse_eq_orElse, Option.orElse_eq_or]

/-- The loop over the men of one type. -/
theorem Quiet.findSome_boardTries (h : b.Quiet) (hP : ∀ m ∈ b.mateTries, P m = true ↔ b.LooksMateAfter m)
    (hpt : pt ∈ kPieceOrder) :
    ((b.piecesOf b.sideToMove pt &&& (b.directCandidates (b.kingSquare (~~~b.sideToMove)) |||
        b.computeBlockersForKing (~~~b.sideToMove) &&& b.pieces b.sideToMove)).squares.findSome? fun src =>
      (b.mateTargets b.pinned pt src).squares.findSome? fun dst =>
        (if canPromote pt b.sideToMove src dst then
          (b.mateProbeSourceRemoval b.sideToMove pt src).tryVariant dst
            ((b.computeBlockersForKing (~~~b.sideToMove) &&& b.pieces b.sideToMove).test src &&
              !(lineBB src (b.kingSquare (~~~b.sideToMove))).test dst) pt.promote (.promotion src dst)
        else none) <|>
        if !mustPromote pt b.sideToMove dst then
          (b.mateProbeSourceRemoval b.sideToMove pt src).tryVariant dst
            ((b.computeBlockersForKing (~~~b.sideToMove) &&& b.pieces b.sideToMove).test src &&
              !(lineBB src (b.kingSquare (~~~b.sideToMove))).test dst) pt (.normal src dst)
        else none) = (b.boardTries pt).find? P := by
  have hb := h.consistent
  rw [boardTries, List.find?_flatMap]
  refine findSome?_congr fun src hsrc => ?_
  have hman : b.position.men b.sideToMove pt src :=
    hb.has_iff.mp (mem_piecesOf.mp (Bitboard.mem_and.mp (Bitboard.mem_squares.mp hsrc)).1)
  obtain rfl := Agree.type_of_men hman
  rw [List.find?_flatMap]
  refine findSome?_congr fun dst hdst => ?_
  obtain ⟨goes, -⟩ := (h.mem_mateTargets (hb.mem_pieces.mpr hman)).mp (Bitboard.mem_squares.mp hdst)
  refine h.findSome_tryVariant hP (fun m hm => List.mem_append_right _ (List.mem_flatMap.mpr ⟨_, hpt, ?_⟩)) rfl goes
  exact List.mem_flatMap.mpr ⟨src, hsrc, List.mem_flatMap.mpr ⟨dst, hdst, hm⟩⟩

/-- `FindMateInOneNonCheck` returns the first try after which no answer is counted. -/
theorem Quiet.findMateInOneNonCheck_eq (h : b.Quiet) (hP : ∀ m ∈ b.mateTries, P m = true ↔ b.LooksMateAfter m) :
    b.findMateInOneNonCheck = b.mateTries.find? P := by
  have hkings : ∀ c, (b.kingSq c).isNone = false := fun c => by rw [h.kings.kingSq_eq c]; rfl
  have hdrop : ∀ pt ∈ dropOrder, _ := fun pt hpt => h.tryDrops_eq hP hpt
  have hboard : ∀ pt ∈ kPieceOrder, _ := fun pt hpt => h.findSome_boardTries hP hpt
  rw [findMateInOneNonCheck, hkings, hkings, Bool.or_self, if_neg Bool.false_ne_true, mateTries, List.find?_append,
    List.find?_flatMap, List.find?_flatMap, ← findSome?_congr hdrop, ← findSome?_congr hboard, dropOrder]
  simp only [findSome?_cons_or, List.findSome?_nil, Option.or_none, Option.or_assoc]
  rw [findMateInOneNonCheckImpl]
  simp only [Option.orElse_eq_orElse, Option.orElse_eq_or]
  rfl

/-! ## Against the legal moves -/

/-- The legal replies to a legal move are those of the rules. -/
theorem Quiet.mates_iff (h : b.Quiet) (hlegal : b.position.Legal m) :
    b.Mates m ↔ (b.doMove m).position.Checkmate := by
  have hb := h.consistent
  have ha := hlegal.allowed
  have hb' : (b.doMove m).Consistent :=
    consistent_doMoveInternal hb (canPlay_of_allowed ha) (not_captures_king h.safe ha)
  have hk' : (b.doMove m).HasKings := h.kings.doMoveInternal
  have hturn : (b.doMove m).position.turn = ~~~b.sideToMove := sideToMove_doMove (m := m)
  rw [Mates, Position.Checkmate, hb'.inCheck_iff hk', hturn, List.eq_nil_iff_forall_not_mem]
  exact and_congr_right fun _ => forall_congr' fun r => not_congr (mem_generateLegalMoves hb' hk')

/-- The king that a legal move attacks, and the own one, which it leaves safe. -/
theorem Quiet.kings_doMove (h : b.Quiet) (hlegal : b.position.Legal m) :
    (b.doMove m).position.KingAt (b.doMove m).position.turn (b.kingSquare (~~~b.sideToMove)) ∧
      (∃ l, (b.doMove m).position.KingAt (~~~(b.doMove m).position.turn) l) ∧
      ¬(b.doMove m).position.InCheck (~~~(b.doMove m).position.turn) := by
  have hb := h.consistent
  have hq := hb.toAgree.answers_doMove hlegal.allowed
  have hking : ∀ c k, (b.position.play m).KingAt c k → (b.doMove m).position.KingAt c k := by
    intro c k hk u
    rw [Position.men_congr hq.man]
    exact hk u
  have hown := hb.kingAt h.kings b.sideToMove
  have hk := hb.kingAt h.kings (~~~b.sideToMove)
  rw [hq.turn, Color.compl_compl]
  refine ⟨hking _ _ ?_, ?_, fun hx => hlegal.not_inCheck ((Position.inCheck_congr hq.man).mp hx)⟩
  · rcases hlegal.allowed.cases with ⟨pt, s, t, hm⟩ | ⟨pt, t, rfl, hempty, hpt⟩
    · exact hm.enemy_king hk (hm.dst_ne_king hk h.safe)
    · exact Position.king_drop hempty hpt hk
  · rcases hlegal.allowed.cases with ⟨pt, s, t, hm⟩ | ⟨pt, t, rfl, hempty, hpt⟩
    · exact ⟨_, hking _ _ (hm.king hown)⟩
    · exact ⟨_, hking _ _ (Position.king_drop hempty hpt hown)⟩

/-- A legal move that looks like a mate is one iff it cuts no pin. -/
theorem Quiet.mates_iff_of_looksMateAfter (h : b.Quiet) (hlegal : b.position.Legal m) (hlooks : b.LooksMateAfter m) :
    b.Mates m ↔ ¬b.CutsPinAfter m := by
  rw [h.mates_iff hlegal, Position.Checkmate, and_iff_right hlooks.check, ← not_exists]
  exact not_congr (hlooks.exists_legal_iff (h.kings_doMove hlegal).1)

/-- A legal move that mates looks like it iff no counted answer deceives. -/
theorem Quiet.looksMateAfter_iff_of_mates (h : b.Quiet) (hlegal : b.position.Legal m) (hmates : b.Mates m) :
    b.LooksMateAfter m ↔ ¬b.DeceivesAfter m := by
  obtain ⟨hk, ⟨l, hl⟩, hsafe⟩ := h.kings_doMove hlegal
  exact Position.looksMate_iff_of_checkmate hk hl hsafe ((h.mates_iff hlegal).mp hmates)

/-- A legal move that mates is tried: the drop of a pawn may not mate. -/
theorem Quiet.mem_mateTries_of_mates (h : b.Quiet) (hlegal : b.position.Legal m) (hmates : b.Mates m) :
    m ∈ b.mateTries := by
  have hb := h.consistent
  have hq := hb.toAgree.answers_doMove hlegal.allowed
  have hmate := (h.mates_iff hlegal).mp hmates
  have hcheck := hmate.1
  rw [hq.turn] at hcheck
  refine h.mem_mateTries_of_check hlegal ((Position.inCheck_congr hq.man).mp hcheck) ?_
  rintro t rfl
  have hpos : (b.doMove (.drop .pawn t)).position = b.position.play (.drop .pawn t) := by
    refine position_doMoveInternal hb.toAgree (canPlay_of_allowed hlegal.allowed) ?_
    cases hlegal.allowed with
    | drop able held empty stay single => exact held
  rw [hpos] at hmate
  exact ((Position.legal_iff (hb.kingAt h.kings _) h.safe).mp hlegal).2.2 ⟨⟨t, rfl⟩, hmate⟩

end Find

section FindMateInOne

variable {b : ShogiBoard}

theorem quiet_of_inCheck_eq_false (hb : b.Consistent) (hk : b.HasKings) (hown : b.inCheck b.sideToMove = false)
    (hopp : b.inCheck (~~~b.sideToMove) = false) : b.Quiet := by
  have hno : ∀ c, b.inCheck c = false → ¬b.position.InCheck c := by
    intro c hc
    rw [← hb.inCheck_iff hk, hc]
    exact Bool.false_ne_true
  exact ⟨⟨hb, hk, hno _ hopp⟩, hno _ hown⟩

theorem findMateInOne_eq_findMateInOneNonCheck (hown : b.inCheck b.sideToMove = false) :
    b.findMateInOne = b.findMateInOneNonCheck := by
  rw [findMateInOne, hown, findMateInOneNonCheck]
  split
  · rfl
  · rfl

/-- Where no king is in check, a move that `FindMateInOne` returns is legal and checks, and mates iff the man
that moved does not unpin a man that can meet the check. -/
theorem findMateInOne_sound_iff (hb : b.Consistent) (hk : b.HasKings) (hown : b.inCheck b.sideToMove = false)
    (hopp : b.inCheck (~~~b.sideToMove) = false) : b.findMateInOne = b.findMateInOneNonCheck ∧
      ∀ m, b.findMateInOne = some m → m ∈ b.generateLegalMoves ∧
        (b.doMove m).inCheck (~~~b.sideToMove) = true ∧
        ((b.doMove m).generateLegalMoves = [] ↔ ¬b.CutsPinAfter m) := by
  classical
  have h := quiet_of_inCheck_eq_false hb hk hown hopp
  have heq := findMateInOne_eq_findMateInOneNonCheck hown
  refine ⟨heq, fun m hm => ?_⟩
  rw [heq, h.findMateInOneNonCheck_eq (P := fun m => decide (b.LooksMateAfter m)) fun m _ => decide_eq_true_iff] at hm
  have hlegal := h.legal_of_mem_mateTries (List.mem_of_find?_eq_some hm)
  have hlooks : b.LooksMateAfter m := of_decide_eq_true (List.find?_some (p := fun m => decide (b.LooksMateAfter m)) hm)
  have hcheck : (b.doMove m).inCheck (~~~b.sideToMove) = true := by
    have hq := hb.toAgree.answers_doMove hlegal.allowed
    have hincheck := hlooks.check
    rw [hq.turn] at hincheck
    exact (inCheck_doMoveInternal_iff hb hk h.safe hlegal.allowed).mpr ((Position.inCheck_congr hq.man).mp hincheck)
  have hmates := h.mates_iff_of_looksMateAfter hlegal hlooks
  rw [Mates, and_iff_right hcheck] at hmates
  exact ⟨(mem_generateLegalMoves hb hk).mpr hlegal, hcheck, hmates⟩

/-- Where no king is in check, `FindMateInOne` returns nothing iff every mate is hidden by a counted answer
that is not legal, and no try looks like a mate because it cuts a pin. -/
theorem findMateInOne_eq_none_iff (hb : b.Consistent) (hk : b.HasKings) (hown : b.inCheck b.sideToMove = false)
    (hopp : b.inCheck (~~~b.sideToMove) = false) : b.findMateInOne = none ↔
      (∀ m ∈ b.generateLegalMoves, b.Mates m → b.DeceivesAfter m) ∧
        ∀ m ∈ b.mateTries, b.LooksMateAfter m → ¬b.CutsPinAfter m := by
  classical
  have h := quiet_of_inCheck_eq_false hb hk hown hopp
  rw [findMateInOne_eq_findMateInOneNonCheck hown,
    h.findMateInOneNonCheck_eq (P := fun m => decide (b.LooksMateAfter m)) fun m _ => decide_eq_true_iff,
    List.find?_eq_none]
  simp only [decide_eq_true_iff]
  constructor
  · intro hnone
    refine ⟨fun m hm hmates => ?_, fun m hm hlooks => absurd hlooks (hnone m hm)⟩
    have hlegal := (mem_generateLegalMoves hb hk).mp hm
    by_contra hno
    exact hnone m (h.mem_mateTries_of_mates hlegal hmates) ((h.looksMateAfter_iff_of_mates hlegal hmates).mpr hno)
  · rintro ⟨hdeceives, hcuts⟩ m hm hlooks
    have hlegal := h.legal_of_mem_mateTries hm
    have hmates := (h.mates_iff_of_looksMateAfter hlegal hlooks).mpr (hcuts m hm hlooks)
    exact (h.looksMateAfter_iff_of_mates hlegal hmates).mp hlooks
      (hdeceives m ((mem_generateLegalMoves hb hk).mpr hlegal) hmates)

end FindMateInOne

section Boards

/-- The bishop on 18 can promote on 38, where it stands in the way of the rook on 43. -/
def unpinning : ShogiBoard :=
  new.placeAll [(.fromIdx 80, ⟨.black, .king⟩), (.fromIdx 36, ⟨.white, .king⟩), (.fromIdx 37, ⟨.white, .silver⟩),
    (.fromIdx 43, ⟨.black, .rook⟩), (.fromIdx 18, ⟨.black, .bishop⟩), (.fromIdx 0, ⟨.black, .rook⟩)]

theorem consistent_unpinning : unpinning.Consistent := by
  refine consistent_placeAll consistent_new ⟨by decide, ?_, by decide, by decide, ?_⟩
  · exact fun _ _ => rfl
  · exact fun _ _ _ => rfl

theorem hasKings_unpinning : unpinning.HasKings := by
  intro c
  cases c <;> rfl

theorem findMateInOne_sound_iff_unpinning : unpinning.findMateInOne = unpinning.findMateInOneNonCheck ∧
    ∀ m, unpinning.findMateInOne = some m → m ∈ unpinning.generateLegalMoves ∧
      (unpinning.doMove m).inCheck .white = true ∧
      ((unpinning.doMove m).generateLegalMoves = [] ↔ ¬unpinning.CutsPinAfter m) :=
  findMateInOne_sound_iff consistent_unpinning hasKings_unpinning (by decide +kernel) (by decide +kernel)

/-- The silver can capture the man that was found to mate. -/
example : unpinning.findMateInOne = some (.promotion (.fromIdx 18) (.fromIdx 38)) ∧
    ¬unpinning.Mates (.promotion (.fromIdx 18) (.fromIdx 38)) := by decide +kernel

/-- The rook on 56 pins the gold when it comes to 38. -/
def pinning : ShogiBoard :=
  new.placeAll [(.fromIdx 80, ⟨.black, .king⟩), (.fromIdx 36, ⟨.white, .king⟩), (.fromIdx 37, ⟨.white, .gold⟩),
    (.fromIdx 66, ⟨.black, .bishop⟩), (.fromIdx 56, ⟨.black, .rook⟩), (.fromIdx 35, ⟨.black, .lance⟩),
    (.fromIdx 53, ⟨.black, .lance⟩), (.fromIdx 55, ⟨.black, .pawn⟩)]

theorem consistent_pinning : pinning.Consistent := by
  refine consistent_placeAll consistent_new ⟨by decide, ?_, by decide, by decide, ?_⟩
  · exact fun _ _ => rfl
  · exact fun _ _ _ => rfl

theorem hasKings_pinning : pinning.HasKings := by
  intro c
  cases c <;> rfl

theorem findMateInOne_eq_none_iff_pinning : pinning.findMateInOne = none ↔
    (∀ m ∈ pinning.generateLegalMoves, pinning.Mates m → pinning.DeceivesAfter m) ∧
      ∀ m ∈ pinning.mateTries, pinning.LooksMateAfter m → ¬pinning.CutsPinAfter m :=
  findMateInOne_eq_none_iff consistent_pinning hasKings_pinning (by decide +kernel) (by decide +kernel)

/-- The mate is missed. -/
example : pinning.findMateInOne = none ∧ pinning.Mates (.normal (.fromIdx 56) (.fromIdx 38)) := by decide +kernel

end Boards

end ShogiBoard

end Shogi
