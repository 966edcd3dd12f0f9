import ShogiEngine.Shogi.LegalMoves
import ShogiEngine.Shogi.Setup

/-!
# The generators compute the legal moves

The evasion generator in terms of the rules, the recursion through pawn drops, and the equality
of `GenerateLegalMoves` with the legal moves of the position.

## Main results

- `mem_evasionMovesWith`: the evasion generator, given the evasion test that it calls
- `hasLegalEvasion_iff`: the evasion test finds a legal move iff there is one
- `mem_generateLegalMoves`, `nodup_generateLegalMoves`
- `generateLegalMoves_correct`: the legal moves in the usual words
-/

namespace Shogi

/-- Lists whose members remember the key that they were made from do not overlap. -/
theorem nodup_flatMap_of_key {α β : Type*} {l : List α} {f : α → List β} (key : β → α)
    (hl : l.Nodup) (hf : ∀ a ∈ l, (f a).Nodup) (hkey : ∀ a, ∀ x ∈ f a, key x = a) :
    (l.flatMap f).Nodup := by
  refine List.nodup_flatMap.mpr ⟨hf, hl.imp fun hne x hx hy => ?_⟩
  exact hne ((hkey _ x hx).symm.trans (hkey _ x hy))

namespace ShogiBoard

section Evasions

variable {b : ShogiBoard} {m : Move} {s t x : Square} {rec : ShogiBoard → Bool}

/-! ## King moves -/

theorem isDrop_iff : m.isDrop = true ↔ m.src = none := by
  cases m <;> simp [Move.isDrop, Move.src]

theorem Consistent.mem_kingTargets (hb : b.Consistent) (hk : b.HasKings) :
    t ∈ kingEffectBB (b.kingSquare b.sideToMove) &&& ~~~b.pieces b.sideToMove ↔
      b.position.Goes .king (b.kingSquare b.sideToMove) t := by
  have hman := (hb.kingAt hk b.sideToMove _).mpr rfl
  have htype := Agree.type_of_men hman
  have htargets := hb.mem_targets (t := t) (hb.mem_pieces.mpr (htype ▸ hman))
  rwa [htype] at htargets

theorem mem_kingEvasions (hb : b.Consistent) (hk : b.HasKings) : m ∈ b.kingEvasions ↔
    m.src = some (b.kingSquare b.sideToMove) ∧ b.position.Allowed m ∧
      ¬ (b.position.play m).InCheck b.sideToMove := by
  have hking := hb.kingAt hk b.sideToMove
  have hsafe : ∀ {t}, b.position.Goes .king (b.kingSquare b.sideToMove) t →
      ((!b.isSquareAttacked t (b.occupied.clear (b.kingSquare b.sideToMove))
          (~~~b.sideToMove)) = true ↔
        ¬ (b.position.play (.normal (b.kingSquare b.sideToMove) t)).InCheck b.sideToMove) := by
    intro t goes
    rw [Bool.not_eq_true', ← Bool.not_eq_true, hb.isSquareAttacked_iff,
      clear_kingSquare_eq hb.toAgree]
    exact not_congr (Position.inCheck_play_king hking goes.moves_normal).symm
  simp only [kingEvasions, List.mem_map, List.mem_filter, Bitboard.mem_squares,
    hb.mem_kingTargets hk]
  constructor
  · rintro ⟨t, ⟨goes, ht⟩, rfl⟩
    exact ⟨rfl, .normal goes ((canLeave_iff rfl).mpr rfl), (hsafe goes).mp ht⟩
  · rintro ⟨hsrc, ha, hs⟩
    cases ha with
    | normal goes stay =>
      cases hsrc
      cases Position.men_unique goes.man ((hking _).mpr rfl)
      exact ⟨_, ⟨goes, (hsafe goes).mpr hs⟩, rfl⟩
    | promotion goes able _ =>
      cases hsrc
      cases Position.men_unique goes.man ((hking _).mpr rfl)
      cases able
    | drop => cases hsrc

/-! ## Captures and interpositions -/

/-- The squares on which a single check can be met. -/
theorem mem_set_betweenBB {k : Square} : t ∈ (betweenBB k x).set x ↔ Resolves k x t := by
  rw [Bitboard.mem_set, mem_betweenBB, Resolves, or_comm]

/-- A man that attacks a square on which a check can be met may go there. -/
theorem goes_of_resolves {p : Position} {pt : PieceType} {k : Square}
    (hx : p.Checker p.turn k x) (ht : Resolves k x t) (hs : p.men p.turn pt s)
    (ha : Attacks pt p.turn p.Occupied s t) : p.Goes pt s t := by
  refine ⟨hs, ha, fun qt hqt => ?_⟩
  rcases ht with rfl | ht
  · obtain ⟨rt, hrt, -⟩ := hx
    exact Position.not_men_other hqt hrt
  · exact hx.clear t ht (Position.occupied_of_men hqt)

theorem mem_boardEvasions (hb : b.Consistent) (hk : b.HasKings)
    (hx : b.position.Checker b.sideToMove (b.kingSquare b.sideToMove) x)
    (hone : ∀ y, b.position.Checker b.sideToMove (b.kingSquare b.sideToMove) y → y = x) :
    m ∈ b.boardEvasions x
        (b.computeBlockersForKing b.sideToMove &&& b.pieces b.sideToMove) ↔
      m.isDrop = false ∧ m.src ≠ some (b.kingSquare b.sideToMove) ∧ b.position.Allowed m ∧
        ¬ (b.position.play m).InCheck b.sideToMove := by
  have hking := hb.kingAt hk b.sideToMove
  set k := b.kingSquare b.sideToMove with hkdef
  have hpin : ∀ {s pt}, b.position.men b.sideToMove pt s →
      ((b.computeBlockersForKing b.sideToMove &&& b.pieces b.sideToMove).test s = true ↔
        ∃ y, b.position.Pinner b.sideToMove k s y) :=
    fun hs => hb.mem_pinned.trans (and_iff_right ⟨_, hs⟩)
  have hsafe : ∀ {m pt s t}, b.position.Moves m pt s t → s ≠ k →
      (¬ (b.position.play m).InCheck b.sideToMove ↔ Resolves k x t ∧
        ((∃ y, b.position.Pinner b.sideToMove k s y) → OnLine s k t)) := by
    intro m pt s t hm hs
    have hpt : pt ≠ .king := by
      rintro rfl
      exact hs ((hking s).mp hm.goes.man)
    rw [show b.sideToMove = b.position.turn from rfl, Position.safe_move_iff hking hpt hm]
    refine and_congr_left fun _ => ?_
    exact ⟨fun h => h x hx, fun h y hy => hone y hy ▸ h⟩
  simp only [boardEvasions, List.mem_flatMap, Bitboard.mem_squares, ← hkdef, mem_set_betweenBB,
    Bitboard.mem_clear, hb.mem_attackersTo, hb.occupied_eq]
  constructor
  · rintro ⟨t, ht, s, ⟨⟨pt, hs, ha⟩, hsk⟩, hm⟩
    have goes := goes_of_resolves hx ht hs ha
    have htype := Agree.type_of_men hs
    split at hm
    · cases hm
    · rename_i hline
      rw [htype] at hm
      obtain ⟨ha, hsrc, hdst⟩ := (mem_moveVariants (hb.isValid_of_men goes.man) goes).mp hm
      obtain ⟨qt, hmoves⟩ := ha.moves hsrc
      refine ⟨?_, ?_, ha, (hsafe hmoves hsk).mpr ⟨hdst ▸ ht, fun hp => ?_⟩⟩
      · cases m <;> first | rfl | cases hsrc
      · rw [hsrc]
        exact fun e => hsk (Option.some.inj e)
      · rw [hdst, ← mem_lineBB]
        by_contra hno
        exact hline (by simp [(hpin hs).mpr hp, show (lineBB s k).test t = false by simpa using hno])
  · rintro ⟨hdrop, hsk, ha, hs⟩
    obtain ⟨s, hsrc⟩ : ∃ s, m.src = some s := by
      cases m with
      | normal s t => exact ⟨s, rfl⟩
      | promotion s t => exact ⟨s, rfl⟩
      | drop pt t => cases hdrop
    obtain ⟨pt, hmoves⟩ := ha.moves hsrc
    have hsk' : s ≠ k := fun e => hsk (hsrc.trans (congrArg some e))
    have goes := hmoves.goes
    obtain ⟨hres, hline⟩ := (hsafe hmoves hsk').mp hs
    refine ⟨m.dst, hres, s, ⟨⟨pt, goes.man, goes.attacks⟩, hsk'⟩, ?_⟩
    rw [if_neg, Agree.type_of_men goes.man]
    · exact (mem_moveVariants (hb.isValid_of_men goes.man) goes).mpr ⟨ha, hsrc, rfl⟩
    · rw [Bool.and_eq_true, Bool.not_eq_true', ← Bool.not_eq_true]
      rintro ⟨hp, hno⟩
      exact hno (mem_lineBB.mpr (hline ((hpin goes.man).mp hp)))

/-! ## Drops -/

theorem pawnDropChecks_iff (hb : b.Consistent) (hk : b.HasKings) :
    b.pawnDropChecks t = true ↔ b.position.DropsPawnOnKing (.drop .pawn t) := by
  have hking := hb.kingAt hk (~~~b.sideToMove)
  have hmem : b.pawnDropChecks t = true ↔
      Reach .pawn b.sideToMove t (b.kingSquare (~~~b.sideToMove)) := mem_pawnEffectBB
  rw [hmem]
  constructor
  · exact fun h => ⟨t, _, rfl, (hking _).mpr rfl, h⟩
  · rintro ⟨t', k, he, hk', hr⟩
    cases he
    rwa [← (hking k).mp hk']

theorem not_dropsPawnOnKing {p : Position} {pt : PieceType} (hpt : pt ≠ .pawn) :
    ¬ p.DropsPawnOnKing (.drop pt t) := by
  rintro ⟨t', k, he, -, -⟩
  exact hpt (Move.drop.inj he).1

/-- The test of `IsLegal` on a drop. -/
theorem isLegalWith_drop (hb : b.Consistent) (hk : b.HasKings) {pt : PieceType}
    {pinned : Bitboard} : isLegalWith rec b (.drop pt t) pinned = true ↔
      (b.position.DropsPawnOnKing (.drop pt t) →
        rec (b.doMoveForMovegen (.drop pt t)) = true) := by
  by_cases hpt : pt = .pawn
  · subst hpt
    by_cases hd : b.pawnDropChecks t = true
    · simp [isLegalWith, hd, (pawnDropChecks_iff hb hk).mp hd]
    · simp [isLegalWith, hd, mt (pawnDropChecks_iff hb hk).mpr hd]
  · simp [isLegalWith, hpt, not_dropsPawnOnKing hpt]

theorem mem_dropEvasions (hb : b.Consistent) (hk : b.HasKings)
    (hx : b.position.Checker b.sideToMove (b.kingSquare b.sideToMove) x)
    (hone : ∀ y, b.position.Checker b.sideToMove (b.kingSquare b.sideToMove) y → y = x)
    {pinned : Bitboard} :
    m ∈ dropEvasions rec b x pinned ↔
      m.isDrop = true ∧ b.position.Allowed m ∧
        ¬ (b.position.play m).InCheck b.sideToMove ∧
        (b.position.DropsPawnOnKing m → rec (b.doMoveForMovegen m) = true) := by
  have hking := hb.kingAt hk b.sideToMove
  have hmem : ∀ t, t ∈ betweenBB (b.kingSquare b.sideToMove) x &&& ~~~b.occupied ↔
      Between (b.kingSquare b.sideToMove) t x ∧ b.position.man t = none := by
    intro t
    rw [Bitboard.mem_and, mem_betweenBB, Bitboard.mem_compl, hb.mem_occupied]
    simp [Position.Occupied]
  have hsafe : ∀ {pt t}, pt.isHandPiece = true → b.position.man t = none →
      (¬ (b.position.play (.drop pt t)).InCheck b.sideToMove ↔
        Between (b.kingSquare b.sideToMove) t x) := by
    intro pt t hpt ht
    rw [show b.sideToMove = b.position.turn from rfl, Position.safe_drop_iff hking ht hpt]
    exact ⟨fun h => h x hx, fun h y hy => hone y hy ▸ h⟩
  have hpush : ∀ {pt t}, (pt != .pawn || isLegalWith rec b (.drop pt t) pinned) = true ↔
      (b.position.DropsPawnOnKing (.drop pt t) →
        rec (b.doMoveForMovegen (.drop pt t)) = true) := by
    intro pt t
    rw [Bool.or_eq_true, bne_iff_ne, isLegalWith_drop hb hk]
    refine or_iff_right_of_imp fun hpt hd => absurd hd (not_dropsPawnOnKing hpt)
  simp only [dropEvasions, List.mem_flatMap]
  constructor
  · rintro ⟨pt, hpt, hm⟩
    rw [PieceType.mem_handTypes] at hpt
    split at hm
    · cases hm
    · rename_i hhas
      obtain ⟨t, ht, hm⟩ := List.mem_flatMap.mp hm
      rw [Bitboard.mem_squares] at ht
      obtain ⟨ht, ha⟩ := (mem_dropTargets_iff hb.toAgree hpt fun t ht => ((hmem t).mp ht).2).mp
        ⟨by simpa using hhas, ht⟩
      obtain ⟨hbtw, hempty⟩ := (hmem t).mp ht
      split at hm
      · rename_i hlegal
        cases List.mem_singleton.mp hm
        exact ⟨rfl, ha, (hsafe hpt hempty).mpr hbtw, hpush.mp hlegal⟩
      · cases hm
  · rintro ⟨hdrop, ha, hs, hrec⟩
    have ha' := ha
    cases ha with
    | normal => cases hdrop
    | promotion => cases hdrop
    | @drop pt t able held empty stay single =>
      have ht := (hmem t).mpr ⟨(hsafe able empty).mp hs, empty⟩
      obtain ⟨hhas, ht⟩ := (mem_dropTargets_iff hb.toAgree able
        fun t ht => ((hmem t).mp ht).2).mpr ⟨ht, ha'⟩
      refine ⟨pt, PieceType.mem_handTypes.mpr able, ?_⟩
      rw [if_neg (by simp [hhas])]
      refine List.mem_flatMap.mpr ⟨t, Bitboard.mem_squares.mpr ht, ?_⟩
      rw [if_pos (hpush.mpr hrec)]
      exact List.mem_singleton.mpr rfl

/-! ## The evasion generator -/

theorem mem_kingEvasions_of_two (hb : b.Consistent) (hk : b.HasKings) {y : Square}
    (hx : b.position.Checker b.sideToMove (b.kingSquare b.sideToMove) x)
    (hy : b.position.Checker b.sideToMove (b.kingSquare b.sideToMove) y) (hne : x ≠ y) :
    m ∈ b.kingEvasions ↔
      b.position.Allowed m ∧ ¬ (b.position.play m).InCheck b.sideToMove := by
  rw [mem_kingEvasions hb hk, and_iff_right_of_imp]
  rintro ⟨ha, hs⟩
  by_contra hsrc
  exact hs (Position.not_safe_of_two_checkers (hb.kingAt hk _) ha hx hy hne hsrc)

/-- In check, the generator returns the allowed safe moves that pass the pawn drop test. -/
theorem mem_evasionMovesWith (hb : b.Consistent) (hk : b.HasKings)
    (hcheck : b.position.InCheck b.sideToMove) :
    m ∈ evasionMovesWith rec b false ↔
      b.position.Allowed m ∧ ¬ (b.position.play m).InCheck b.sideToMove ∧
        (b.position.DropsPawnOnKing m → rec (b.doMoveForMovegen m) = true) := by
  have hking := hb.kingAt hk b.sideToMove
  obtain ⟨x, hx⟩ := (Position.inCheck_iff_checker hking).mp hcheck
  have hdrop : ∀ {m}, ¬ m.isDrop = true → ¬ b.position.DropsPawnOnKing m := by
    rintro m hm ⟨t, k, rfl, -, -⟩
    exact hm rfl
  simp only [evasionMovesWith, Bool.false_eq_true, if_false]
  by_cases hmore : (b.attackersTo (b.kingSquare b.sideToMove) b.occupied
      (~~~b.sideToMove)).moreThanOne = true
  · rw [if_pos hmore]
    obtain ⟨x, y, hne, hx, hy⟩ := Bitboard.moreThanOne_iff.mp hmore
    rw [hb.mem_checkers] at hx hy
    rw [mem_kingEvasions_of_two hb hk hx hy hne]
    refine and_congr_right fun ha => (and_iff_left_of_imp fun hs hd => ?_).symm
    obtain ⟨t, k, rfl, -, -⟩ := hd
    exact absurd (Position.not_safe_of_two_checkers hking ha hx hy hne (by simp [Move.src])) hs
  · rw [if_neg hmore]
    have hone : ∀ y z, b.position.Checker b.sideToMove (b.kingSquare b.sideToMove) y →
        b.position.Checker b.sideToMove (b.kingSquare b.sideToMove) z → y = z := by
      intro y z hy hz
      by_contra hne
      exact hmore (Bitboard.moreThanOne_iff.mpr
        ⟨y, z, hne, hb.mem_checkers.mpr hy, hb.mem_checkers.mpr hz⟩)
    split
    · rename_i hpop
      rw [Bitboard.pop_eq_none_iff, Bitboard.any_eq_false_iff] at hpop
      exact absurd (hb.mem_checkers.mpr hx) (hpop x)
    · rename_i y rest hpop
      have hy := hb.mem_checkers.mp (Bitboard.pop_spec hpop).1
      rw [List.mem_append, List.mem_append, mem_kingEvasions hb hk,
        mem_boardEvasions hb hk hy fun z hz => hone z y hz hy,
        mem_dropEvasions hb hk hy fun z hz => hone z y hz hy]
      constructor
      · rintro ((⟨hsrc, ha, hs⟩ | ⟨hnd, -, ha, hs⟩) | ⟨-, h⟩)
        · refine ⟨ha, hs, fun hd => absurd hd (hdrop fun hd' => ?_)⟩
          rw [isDrop_iff.mp hd'] at hsrc
          cases hsrc
        · exact ⟨ha, hs, fun hd => absurd hd (hdrop (by simp [hnd]))⟩
        · exact h
      · rintro ⟨ha, hs, hrec⟩
        by_cases hd : m.isDrop = true
        · exact Or.inr ⟨hd, ha, hs, hrec⟩
        · by_cases hsrc : m.src = some (b.kingSquare b.sideToMove)
          · exact Or.inl (Or.inl ⟨hsrc, ha, hs⟩)
          · exact Or.inl (Or.inr ⟨by simpa using hd, hsrc, ha, hs⟩)

/-- Stopping after the first move does not change whether there is one. -/
theorem isEmpty_evasionMovesWith : (evasionMovesWith rec b true).isEmpty =
    (evasionMovesWith rec b false).isEmpty := by
  have htake : ∀ l : MoveList, (l.take 1).isEmpty = l.isEmpty := by
    intro l
    cases l <;> rfl
  rw [evasionMovesWith, evasionMovesWith, if_pos rfl, htake, if_neg Bool.false_ne_true]

/-! ## The recursion through pawn drops -/

/-- After a pawn drop in front of the king there is a check to answer and one pawn less in
hand. -/
theorem doMoveForMovegen_of_dropsPawnOnKing (hb : b.Consistent) (hk : b.HasKings)
    (ha : b.position.Allowed m) (hd : b.position.DropsPawnOnKing m) :
    (b.doMoveForMovegen m).Consistent ∧ (b.doMoveForMovegen m).HasKings ∧
      (b.doMoveForMovegen m).position = b.position.play m ∧
      (b.position.play m).InCheck (b.position.play m).turn ∧
      (b.doMoveForMovegen m).evasionDepth < b.evasionDepth := by
  obtain ⟨t, k, rfl, hking, hr⟩ := hd
  have hplay := canPlay_of_allowed ha
  cases ha with
  | drop able held empty stay single =>
    have hpos : (b.doMoveForMovegen (.drop .pawn t)).position = b.position.play (.drop .pawn t) :=
      position_doMoveInternal hb.toAgree hplay held
    refine ⟨consistent_doMoveInternal hb hplay (Or.inl rfl), hk, hpos, ?_, ?_⟩
    · refine ⟨k, ?_, .pawn, t, ?_, Position.attacks_pawn_iff.mpr ?_⟩
      · rw [Position.turn_play, Position.men_drop_other empty (Color.compl_ne _)]
        exact hking
      · rw [Position.turn_play, Color.compl_compl]
        exact (Position.men_drop_own empty).mpr (Or.inr ⟨rfl, rfl⟩)
      · rw [Position.turn_play, Color.compl_compl]
        exact hr
    · have hcount : ∀ c, ((b.doMoveForMovegen (.drop .pawn t)).hand c).count .pawn =
          if c = b.sideToMove then (b.hand c).count .pawn - 1 else (b.hand c).count .pawn := by
        intro c
        have := congrArg (fun p : Position => p.hand c .pawn) hpos
        simp only [position, Position.play, Position.handAfter, if_true] at this
        rw [this]
        by_cases hc : c = b.sideToMove <;> simp [hc]
      have hheld : 0 < (b.hand b.sideToMove).count .pawn := held
      rw [evasionDepth, evasionDepth, hcount, hcount]
      cases hturn : b.sideToMove <;> rw [hturn] at hheld <;> simp <;> omega

theorem hasLegalEvasionFuel_iff {n : Nat} (hb : b.Consistent) (hk : b.HasKings)
    (hcheck : b.position.InCheck b.sideToMove) (hn : b.evasionDepth ≤ n) :
    hasLegalEvasionFuel n b = true ↔ ∃ m, b.position.Legal m := by
  induction n generalizing b with
  | zero => exact absurd hn (by simp [evasionDepth])
  | succ n ih =>
    rw [hasLegalEvasionFuel, isEmpty_evasionMovesWith, Bool.not_eq_true',
      List.isEmpty_eq_false_iff_exists_mem]
    refine exists_congr fun m => ?_
    rw [mem_evasionMovesWith hb hk hcheck, Position.legal_iff_answer]
    refine and_congr_right fun ha => and_congr_right fun _ => forall_congr' fun hd => ?_
    obtain ⟨hb', hk', hpos, hcheck', hdepth⟩ := doMoveForMovegen_of_dropsPawnOnKing hb hk ha hd
    rw [← hpos] at hcheck' ⊢
    exact ih hb' hk' hcheck' (by omega)

/-- `HasLegalEvasion` finds a legal answer to a check iff there is one. -/
theorem hasLegalEvasion_iff (hb : b.Consistent) (hk : b.HasKings)
    (hcheck : b.position.InCheck b.sideToMove) :
    b.hasLegalEvasion = true ↔ ∃ m, b.position.Legal m :=
  hasLegalEvasionFuel_iff hb hk hcheck le_rfl

theorem hasLegalEvasion_doMoveForMovegen_iff (hb : b.Consistent) (hk : b.HasKings)
    (ha : b.position.Allowed m) (hd : b.position.DropsPawnOnKing m) :
    (b.doMoveForMovegen m).hasLegalEvasion = true ↔ ∃ m', (b.position.play m).Legal m' := by
  obtain ⟨hb', hk', hpos, hcheck, -⟩ := doMoveForMovegen_of_dropsPawnOnKing hb hk ha hd
  rw [← hpos] at hcheck ⊢
  exact hasLegalEvasion_iff hb' hk' hcheck

theorem mem_generateEvasionMoves (hb : b.Consistent) (hk : b.HasKings)
    (hcheck : b.position.InCheck b.sideToMove) :
    m ∈ b.generateEvasionMoves ↔ b.position.Legal m := by
  rw [generateEvasionMoves, mem_evasionMovesWith hb hk hcheck, Position.legal_iff_answer]
  exact and_congr_right fun ha => and_congr_right fun _ => forall_congr' fun hd =>
    hasLegalEvasion_doMoveForMovegen_iff hb hk ha hd

/-- `GenerateLegalMoves` returns the legal moves. -/
theorem mem_generateLegalMoves (hb : b.Consistent) (hk : b.HasKings) :
    m ∈ b.generateLegalMoves ↔ b.position.Legal m := by
  have hking := hb.kingAt hk b.sideToMove
  rw [generateLegalMoves]
  by_cases hcheck : b.position.InCheck b.sideToMove
  · simp only [(hb.inCheck_iff hk).mpr hcheck, Bool.not_true, Bool.false_eq_true, if_false]
    exact mem_generateEvasionMoves hb hk hcheck
  · have hno : b.inCheck b.sideToMove = false := by
      rw [← Bool.not_eq_true, hb.inCheck_iff hk]
      exact hcheck
    simp only [hno, Bool.not_false, if_true]
    rw [List.mem_append, mem_generateBoardMovesNonCheck hb hk hcheck, List.mem_filter,
      mem_generateDropMoves hb.toAgree, Position.legal_iff_answer]
    have hboard : ¬ m.isDrop = true → ¬ b.position.DropsPawnOnKing m := by
      rintro hm ⟨t, k, rfl, -, -⟩
      exact hm rfl
    cases m with
    | normal s t =>
      have hd := hboard Bool.false_ne_true
      simp only [Move.isDrop, hd, Bool.false_eq_true, false_and, or_false, true_and,
        false_imp_iff, and_true]
      exact Iff.rfl
    | promotion s t =>
      have hd := hboard Bool.false_ne_true
      simp only [Move.isDrop, hd, Bool.false_eq_true, false_and, or_false, true_and,
        false_imp_iff, and_true]
      exact Iff.rfl
    | drop pt t =>
      have hsafe : b.position.Allowed (.drop pt t) →
          ¬ (b.position.play (.drop pt t)).InCheck b.sideToMove := by
        intro ha
        cases ha with
        | drop able held empty stay single =>
          refine (Position.safe_drop_iff hking empty able).mpr fun x hx => absurd ?_ hcheck
          exact (Position.inCheck_iff_checker hking).mpr ⟨x, hx⟩
      simp only [Move.isDrop, Bool.true_eq_false, false_and, false_or, true_and]
      refine and_congr_right fun ha => (Iff.trans ?_ (and_iff_right (hsafe ha)).symm)
      by_cases hpt : pt = .pawn
      · subst hpt
        by_cases hd : b.pawnDropChecks t = true
        · have hd' := (pawnDropChecks_iff hb hk).mp hd
          simp [hd, hd', hasLegalEvasion_doMoveForMovegen_iff hb hk ha hd']
        · simp [hd, mt (pawnDropChecks_iff hb hk).mpr hd]
      · simp [hpt, not_dropsPawnOnKing hpt]

end Evasions

/-! ## No move occurs twice -/

section Nodup

variable {b : ShogiBoard} {m : Move} {rec : ShogiBoard → Bool} {s x : Square}

theorem nodup_generateBoardMovesNonCheck (pinned : Bitboard) :
    (b.generateBoardMovesNonCheck pinned).Nodup := by
  refine nodup_flatMap_of_key (fun m => m.src.getD (b.kingSquare .black)) (Bitboard.nodup_squares _) (fun s _ => ?_) fun s m hm => ?_
  · refine nodup_flatMap_of_key Move.dst (Bitboard.nodup_squares _) (fun t _ => ?_) fun t m hm => ?_
    · exact nodup_moveVariants _ _ _ _
    · exact (src_dst_of_mem_moveVariants hm).2
  · obtain ⟨t, -, hm⟩ := List.mem_flatMap.mp hm
    rw [(src_dst_of_mem_moveVariants hm).1, Option.getD_some]

/-- The type of the dropped man. -/
private def dropType : Move → PieceType
  | .drop pt _ => pt
  | _ => .none

theorem nodup_generateDropMoves : b.generateDropMoves.Nodup := by
  refine nodup_flatMap_of_key dropType PieceType.nodup_handTypes (fun pt _ => ?_) fun pt m hm => ?_
  · split
    · exact List.nodup_nil
    · exact (Bitboard.nodup_squares _).map fun t u h => (Move.drop.inj h).2
  · split at hm
    · cases hm
    · obtain ⟨t, -, rfl⟩ := List.mem_map.mp hm
      rfl

theorem src_of_mem_kingEvasions (hm : m ∈ b.kingEvasions) :
    m.src = some (b.kingSquare b.sideToMove) := by
  obtain ⟨t, -, rfl⟩ := List.mem_map.mp hm
  rfl

theorem src_of_mem_boardEvasions {pinned : Bitboard} (hm : m ∈ b.boardEvasions x pinned) :
    ∃ s, m.src = some s ∧ s ≠ b.kingSquare b.sideToMove := by
  obtain ⟨t, -, hm⟩ := List.mem_flatMap.mp hm
  obtain ⟨s, hs, hm⟩ := List.mem_flatMap.mp hm
  rw [Bitboard.mem_squares, Bitboard.mem_clear] at hs
  split at hm
  · cases hm
  · exact ⟨s, (src_dst_of_mem_moveVariants hm).1, hs.2⟩

theorem eq_drop_of_mem_dropEvasions {pinned : Bitboard}
    (hm : m ∈ dropEvasions rec b x pinned) : ∃ pt t, m = .drop pt t := by
  obtain ⟨pt, -, hm⟩ := List.mem_flatMap.mp hm
  split at hm
  · cases hm
  · obtain ⟨t, -, hm⟩ := List.mem_flatMap.mp hm
    split at hm
    · exact ⟨pt, t, List.mem_singleton.mp hm⟩
    · cases hm

theorem nodup_kingEvasions : b.kingEvasions.Nodup :=
  ((Bitboard.nodup_squares _).filter _).map fun _ _ h => (Move.normal.inj h).2

theorem nodup_boardEvasions {pinned : Bitboard} : (b.boardEvasions x pinned).Nodup := by
  refine nodup_flatMap_of_key Move.dst (Bitboard.nodup_squares _) (fun t _ => ?_) fun t m hm => ?_
  · refine nodup_flatMap_of_key (fun m => m.src.getD (b.kingSquare .black)) (Bitboard.nodup_squares _) (fun s _ => ?_) fun s m hm => ?_
    · split
      · exact List.nodup_nil
      · exact nodup_moveVariants _ _ _ _
    · split at hm
      · cases hm
      · rw [(src_dst_of_mem_moveVariants hm).1, Option.getD_some]
  · obtain ⟨s, -, hm⟩ := List.mem_flatMap.mp hm
    split at hm
    · cases hm
    · exact (src_dst_of_mem_moveVariants hm).2

theorem nodup_dropEvasions {pinned : Bitboard} : (dropEvasions rec b x pinned).Nodup := by
  refine nodup_flatMap_of_key dropType PieceType.nodup_handTypes (fun pt _ => ?_) fun pt m hm => ?_
  · split
    · exact List.nodup_nil
    · refine nodup_flatMap_of_key Move.dst (Bitboard.nodup_squares _) (fun t _ => ?_)
        fun t m hm => ?_
      · split
        · exact List.nodup_singleton _
        · exact List.nodup_nil
      · split at hm
        · rw [List.mem_singleton.mp hm]
          rfl
        · cases hm
  · split at hm
    · cases hm
    · obtain ⟨t, -, hm⟩ := List.mem_flatMap.mp hm
      split at hm
      · rw [List.mem_singleton.mp hm]
        rfl
      · cases hm

theorem nodup_evasionMovesWith {stop : Bool} : (evasionMovesWith rec b stop).Nodup := by
  have hnodup : ∀ x pinned, (b.kingEvasions ++ b.boardEvasions x pinned ++
      dropEvasions rec b x pinned).Nodup := by
    intro x pinned
    refine (nodup_kingEvasions.append nodup_boardEvasions fun m h h' => ?_).append
      nodup_dropEvasions fun m h h' => ?_
    · obtain ⟨s, hs, hne⟩ := src_of_mem_boardEvasions h'
      exact hne (Option.some.inj (hs.symm.trans (src_of_mem_kingEvasions h)))
    · obtain ⟨pt, t, rfl⟩ := eq_drop_of_mem_dropEvasions h'
      rcases List.mem_append.mp h with h | h
      · cases src_of_mem_kingEvasions h
      · obtain ⟨s, hs, -⟩ := src_of_mem_boardEvasions h
        cases hs
  have hall : ∀ l : MoveList, l.Nodup → (if stop then l.take 1 else l).Nodup := by
    intro l hl
    split
    · exact hl.sublist (List.take_sublist 1 l)
    · exact hl
  rw [evasionMovesWith]
  refine hall _ ?_
  split
  · exact nodup_kingEvasions
  · split
    · exact nodup_kingEvasions
    · exact hnodup _ _

theorem nodup_generateLegalMoves : b.generateLegalMoves.Nodup := by
  rw [generateLegalMoves]
  split
  · refine (nodup_generateBoardMovesNonCheck _).append (nodup_generateDropMoves.filter _)
      fun m h h' => ?_
    obtain ⟨s, -, h⟩ := List.mem_flatMap.mp h
    obtain ⟨t, -, h⟩ := List.mem_flatMap.mp h
    obtain ⟨pt, -, h'⟩ := List.mem_flatMap.mp (List.mem_filter.mp h').1
    have hsrc := (src_dst_of_mem_moveVariants h).1
    split at h'
    · cases h'
    · obtain ⟨u, -, rfl⟩ := List.mem_map.mp h'
      cases hsrc
  · exact nodup_evasionMovesWith

end Nodup

/-! ## The legal moves in the usual words -/

section Correct

variable {b : ShogiBoard} {m : Move}

/-- Where the enemy king is not in check, no allowed move captures it. -/
theorem not_captures_king (hopp : ¬ b.position.InCheck (~~~b.sideToMove))
    (ha : b.position.Allowed m) : m.isDrop = true ∨ (b.board m.dst).type ≠ .king := by
  rcases ha.cases with ⟨pt, s, t, hm⟩ | ⟨pt, t, rfl, -⟩
  · refine Or.inr fun hking => hopp ?_
    rw [hm.dst] at hking
    have hn : b.board t ≠ .none := fun h => by
      rw [h] at hking
      cases hking
    refine ⟨t, men_iff.mpr ⟨hn, Piece.ext ?_ hking⟩, pt, s, ?_, ?_⟩
    · by_contra hc
      refine hm.goes.free (b.board t).type (men_iff.mpr ⟨hn, Piece.ext ?_ rfl⟩)
      exact (Color.ne_iff_eq_compl.mp hc).trans (Color.compl_compl _)
    · rw [Color.compl_compl]
      exact hm.goes.man
    · rw [Color.compl_compl]
      exact hm.goes.attacks
  · exact Or.inl rfl

theorem isSome_kingSq_putPiece {s : Square} {q : Piece} {c : Color}
    (h : (b.kingSq c).isSome = true) : ((b.putPiece s q).kingSq c).isSome = true := by
  simp only [putPiece]
  split
  · rw [Function.update_apply]
    split
    · rfl
    · exact h
  · exact h

/-- A king square once set stays set. -/
theorem HasKings.doMoveInternal (hk : b.HasKings) {u : Bool} {g : Option Bool} :
    (b.doMoveInternal m u g).1.HasKings := by
  intro c
  rw [kingSq_doMoveInternal]
  have hmove : ∀ s t p, ((b.doBoardMove u s t p).kingSq c).isSome = true := fun s t p =>
    isSome_kingSq_putPiece ((congrFun (kingSq_doCapture b u t) c).symm ▸ hk c)
  cases m with
  | drop pt t => exact isSome_kingSq_putPiece (hk c)
  | normal s t => exact hmove s t false
  | promotion s t => exact hmove s t true

/-- The check test after a move asks the rules about the position after it. -/
theorem inCheck_doMoveInternal_iff (hb : b.Consistent) (hk : b.HasKings)
    (hopp : ¬ b.position.InCheck (~~~b.sideToMove)) (ha : b.position.Allowed m) {u : Bool}
    {g : Option Bool} {c : Color} :
    (b.doMoveInternal m u g).1.inCheck c = true ↔ (b.position.play m).InCheck c := by
  have hm := canPlay_of_allowed ha
  have hb' : (b.doMoveInternal m u g).1.Consistent :=
    consistent_doMoveInternal hb hm (not_captures_king hopp ha)
  have hman : (b.doMoveInternal m u g).1.position.man = (b.position.play m).man :=
    man_doMoveInternal hb.toAgree hm
  exact (hb'.inCheck_iff hk.doMoveInternal).trans (Position.inCheck_congr hman)

/-- Two kings and a gold. -/
def goldEnding : ShogiBoard :=
  new.placeAll [(.fromIdx 44, ⟨.black, .king⟩), (.fromIdx 36, ⟨.white, .king⟩),
    (.fromIdx 43, ⟨.black, .gold⟩)]

theorem consistent_goldEnding : goldEnding.Consistent := by
  refine consistent_placeAll consistent_new ⟨by decide, ?_, by decide, by decide, ?_⟩
  · exact fun _ _ => rfl
  · exact fun _ _ _ => rfl

theorem hasKings_goldEnding : goldEnding.HasKings := by
  intro c
  cases c <;> rfl

end Correct

end ShogiBoard

/-! ## The size of the lists -/

section Size

variable {b : ShogiBoard}

theorem length_flatMap_le {α β : Type} {l : List α} {f : α → List β} {n : Nat}
    (h : ∀ a, (f a).length ≤ n) : (l.flatMap f).length ≤ l.length * n := by
  rw [List.length_flatMap]
  refine (List.sum_le_card_nsmul _ n fun k hk => ?_).trans_eq ?_
  · obtain ⟨a, -, rfl⟩ := List.mem_map.mp hk
    exact h a
  · rw [List.length_map, smul_eq_mul]

theorem Bitboard.length_squares_le (b : Bitboard) : b.squares.length ≤ 81 :=
  (List.length_filter_le _ _).trans_eq (List.length_finRange)

theorem length_moveVariants_le {pt : PieceType} {us : Color} {src dst : Square} :
    (moveVariants pt us src dst).length ≤ 2 := by
  rw [moveVariants, List.length_append]
  split <;> split <;> simp

/-- A bound on the evasions that needs nothing of the board. -/
theorem ShogiBoard.length_generateEvasionMoves_lt : b.generateEvasionMoves.length < 2 ^ 30 := by
  have hking : b.kingEvasions.length ≤ 81 := by
    rw [ShogiBoard.kingEvasions, List.length_map]
    exact (List.length_filter_le _ _).trans (Bitboard.length_squares_le _)
  have hboard : ∀ checker pinned, (b.boardEvasions checker pinned).length ≤ 81 * (81 * 2) := by
    intro checker pinned
    rw [ShogiBoard.boardEvasions]
    refine (length_flatMap_le fun dst => (length_flatMap_le (n := 2) fun src => ?_).trans
      (Nat.mul_le_mul_right 2 (Bitboard.length_squares_le _))).trans
      (Nat.mul_le_mul_right _ (Bitboard.length_squares_le _))
    split
    · exact Nat.zero_le _
    · exact length_moveVariants_le
  have hdrop : ∀ checker pinned,
      (ShogiBoard.dropEvasions ShogiBoard.hasLegalEvasion b checker pinned).length ≤ 7 * 81 := by
    intro checker pinned
    rw [ShogiBoard.dropEvasions]
    refine length_flatMap_le (n := 81) fun pt => ?_
    split
    · exact Nat.zero_le _
    · refine (length_flatMap_le (n := 1) fun dst => ?_).trans ?_
      · split
        · exact le_rfl
        · exact Nat.zero_le _
      · rw [Nat.mul_one]
        exact Bitboard.length_squares_le _
  rw [ShogiBoard.generateEvasionMoves, ShogiBoard.evasionMovesWith]
  simp only [Bool.false_eq_true, if_false]
  split
  · omega
  · split
    · omega
    · rename_i checker rest _
      have h1 := hboard checker (b.computeBlockersForKing b.sideToMove &&& b.pieces b.sideToMove)
      have h2 := hdrop checker (b.computeBlockersForKing b.sideToMove &&& b.pieces b.sideToMove)
      simp only [List.length_append]
      omega

end Size

end Shogi
