import ShogiEngine.Rules.MateAnswers
import ShogiEngine.Shogi.CheckMoves
import ShogiEngine.Shogi.Runs

/-!
# The test for mate in one

`FindMateInOne` for a side that is not in check. A move is not made to see whether it mates: the man that
moves and the man that it captures are taken off the bitboards, and the answers are counted on what is left,
with the square of the move added to the occupied squares.

## Main definitions

- `isMateAfterMateProbe`: the test of one move
- `findMateInOneNonCheck`, `findMateInOne`: the first move that passes it

## Main results

- `isMateAfterMateProbe_iff`: the test asks whether the position after the move looks like a mate
-/

namespace Shogi

namespace ShogiBoard

/-! ## The source -/

/-- The bitboards without a man; the mailbox keeps it. -/
def clearMan (b : ShogiBoard) (color : Color) (type : PieceType) (square : Square) : ShogiBoard :=
  { b with
    byColor := Function.update b.byColor color ((b.byColor color).clear square)
    byType := Function.update b.byType type ((b.byType type).clear square) }

/-- `MateProbeSourceRemoval`. -/
def mateProbeSourceRemoval (b : ShogiBoard) (color : Color) (type : PieceType) (square : Square) : ShogiBoard :=
  b.clearMan color type square

/-- `MateProbeCaptureRemoval`. -/
def mateProbeCaptureRemoval (b : ShogiBoard) (square : Square) : ShogiBoard :=
  let piece := b.board square
  if piece.isNone then b else b.clearMan piece.color piece.type square

/-- `CanKingEscapeAfterMateProbe`. -/
def canKingEscapeAfterMateProbe (b : ShogiBoard) (attacker : Color) (checkerSquare : Square)
    (occupiedAfter movedCheckerAttacks : Bitboard) : Bool :=
  let defender := ~~~attacker
  let kingSquare := b.kingSquare defender
  let targets := kingEffectBB kingSquare &&& ~~~b.pieces defender
  let targets := if (kingEffectBB kingSquare).test checkerSquare then targets.set checkerSquare else targets
  let occupiedWithoutKing := occupiedAfter.clear kingSquare
  targets.squares.any fun dst =>
    if dst = checkerSquare then !b.isSquareAttacked dst (occupiedWithoutKing.clear checkerSquare) attacker
    else if movedCheckerAttacks.test dst then false
    else !b.isSquareAttacked dst occupiedWithoutKing attacker

/-- `CanDefenderCaptureMateChecker`. -/
def canDefenderCaptureMateChecker (b : ShogiBoard) (defender : Color) (checkerSquare : Square)
    (occupiedAfter : Bitboard) : Bool :=
  let candidates := (b.attackersTo checkerSquare occupiedAfter defender).clear (b.kingSquare defender)
  if candidates.empty then false
  else
    let kingSquare := b.kingSquare defender
    let pinned := b.computeBlockersForKing defender &&& b.pieces defender
    candidates.squares.any fun src => !pinned.test src || (lineBB src kingSquare).test checkerSquare

/-- `CanDefenderInterposeMateCheck`. -/
def canDefenderInterposeMateCheck (b : ShogiBoard) (defender : Color) (between occupiedAfter : Bitboard) : Bool :=
  if between.empty then false
  else
    let defenders := b.pieces defender
    let kingSquare := b.kingSquare defender
    let pinned := b.computeBlockersForKing defender &&& defenders
    let byMan (src : Square) : Bool :=
      let targets := pieceAttacks (b.board src).type defender src occupiedAfter &&& between
      if targets.empty then false
      else if !pinned.test src then true
      else (targets &&& lineBB src kingSquare).any
    if (defenders.clear kingSquare).squares.any byMan then true
    else
      let emptyBetween := between &&& ~~~occupiedAfter
      if emptyBetween.empty then false
      else PieceType.handTypes.any fun type => (b.hand defender).has type &&
        (dropTargets defender (b.piecesOf defender .pawn) type emptyBetween).any

/-- `sole_checker`. -/
def soleChecker (discoveredCheckers : Bitboard) (directCheck : Bool) (checkerSquare : Square) : Square :=
  if directCheck then checkerSquare else discoveredCheckers.peek.getD checkerSquare

/-- `IsMateAfterMateProbe`. -/
def isMateAfterMateProbe (b : ShogiBoard) (us : Color) (movedType : PieceType) (checkerSquare : Square) : Bool :=
  let them := ~~~us
  let kingSquare := b.kingSquare them
  let b := b.mateProbeCaptureRemoval checkerSquare
  let occupiedAfter := b.occupied.set checkerSquare
  let occupiedWithoutKing := occupiedAfter.clear kingSquare
  let movedCheckerAttacks := pieceAttacks movedType us checkerSquare occupiedWithoutKing
  let directCheck := movedCheckerAttacks.test kingSquare
  let discoveredCheckers := b.attackersTo kingSquare occupiedAfter us
  if !directCheck && discoveredCheckers.empty then false
  else if b.canKingEscapeAfterMateProbe us checkerSquare occupiedAfter movedCheckerAttacks then false
  else if 1 < discoveredCheckers.popCount + (if directCheck then 1 else 0) then true
  else
    let soleChecker := soleChecker discoveredCheckers directCheck checkerSquare
    if b.canDefenderCaptureMateChecker them soleChecker occupiedAfter then false
    else !b.canDefenderInterposeMateCheck them (betweenBB kingSquare soleChecker) occupiedAfter

/-- `try_drops`. -/
def tryDrops (b : ShogiBoard) (type : PieceType) (checkZone : Bitboard) : Option Move :=
  if !(b.hand b.sideToMove).has type then none
  else
    ((checkZone &&& ~~~b.occupied).squares.find? fun dst => b.isMateAfterMateProbe b.sideToMove type dst).map
      (.drop type)

/-- The targets of the man on `src`. -/
def mateTargets (b : ShogiBoard) (pinned : Bitboard) (type : PieceType) (src : Square) : Bitboard :=
  let us := b.sideToMove
  let targets := pieceAttacks type us src b.occupied &&& ~~~b.pieces us
  let targets := if pinned.test src then targets &&& lineBB src (b.kingSquare us) else targets
  if type = .king then targets.filter fun dst => b.isLegal (.normal src dst) pinned else targets

/-- `try_variant`, on the board without the man that moves. -/
def tryVariant (b : ShogiBoard) (dst : Square) (discoveredCheck : Bool) (movedType : PieceType) (move : Move) :
    Option Move :=
  let us := b.sideToMove
  let kingSquare := b.kingSquare (~~~us)
  let occupiedWithoutKing := (b.occupied.set dst).clear kingSquare
  let directCheck := (pieceAttacks movedType us dst occupiedWithoutKing).test kingSquare
  if !directCheck && !discoveredCheck then none
  else if b.isMateAfterMateProbe us movedType dst then some move else none

/-- `kPieceOrder`. -/
def kPieceOrder : List PieceType :=
  [.dragon, .rook, .horse, .bishop, .gold, .proPawn, .proLance, .proKnight, .proSilver, .silver, .knight, .lance,
    .pawn, .king]

/-- `FindMateInOneNonCheckImpl`. -/
def findMateInOneNonCheckImpl (b : ShogiBoard) : Option Move :=
  let us := b.sideToMove
  let them := ~~~us
  let kingSquare := b.kingSquare them
  let ourPieces := b.pieces us
  let discovered := b.computeBlockersForKing them &&& ourPieces
  let pinned := b.computeBlockersForKing us &&& ourPieces
  let candidates := b.directCandidates kingSquare ||| discovered
  b.tryDrops .rook (rookEffectBB kingSquare) <|>
  b.tryDrops .lance (lanceCheckBB kingSquare us) <|>
  b.tryDrops .bishop (bishopCheckBB kingSquare) <|>
  b.tryDrops .gold (goldCheckBB kingSquare us) <|>
  b.tryDrops .silver (silverCheckBB kingSquare us) <|>
  b.tryDrops .knight (knightCheckBB kingSquare us) <|>
  kPieceOrder.findSome? fun type =>
    (b.piecesOf us type &&& candidates).squares.findSome? fun src =>
      let bare := b.mateProbeSourceRemoval us type src
      (b.mateTargets pinned type src).squares.findSome? fun dst =>
        let discoveredCheck := discovered.test src && !(lineBB src kingSquare).test dst
        (if canPromote type us src dst then bare.tryVariant dst discoveredCheck type.promote (.promotion src dst)
        else none) <|>
        if !mustPromote type us dst then bare.tryVariant dst discoveredCheck type (.normal src dst) else none

/-- `FindMateInOneNonCheck`. -/
def findMateInOneNonCheck (b : ShogiBoard) : Option Move :=
  if (b.kingSq .black).isNone || (b.kingSq .white).isNone then none else b.findMateInOneNonCheckImpl

/-- `FindMateInOne`. -/
def findMateInOne (b : ShogiBoard) : Option Move :=
  if (b.kingSq .black).isNone || (b.kingSq .white).isNone then none
  else if !b.inCheck b.sideToMove then b.findMateInOneNonCheck
  else b.generateCheckingMoves.find? fun move => !(b.doMoveInternal move true (some true)).1.hasLegalEvasion

/-! ## Bitboards without some men -/

/-- The bitboards hold the men of a relation, of which no two share a square. -/
structure Shows (b : ShogiBoard) (M : Color → Men) : Prop where
  color : ∀ c u, u ∈ b.byColor c ↔ ∃ pt, M c pt u
  type : ∀ pt u, u ∈ b.byType pt ↔ ∃ c, M c pt u
  alone : ∀ {c c' pt pt' u}, M c pt u → M c' pt' u → c = c' ∧ pt = pt'

section Shows

variable {b : ShogiBoard} {M : Color → Men} {c : Color} {pt : PieceType} {s u : Square}

theorem Agree.shows (hb : b.Agree) : b.Shows b.position.men where
  color c u := hb.mem_byColor
  type pt u := by
    rw [hb.type_mem]
    simp only [men_iff, Piece.ext_iff]
    exact ⟨fun h => ⟨_, h.1, rfl, h.2⟩, fun ⟨_, hn, _, hpt⟩ => ⟨hn, hpt⟩⟩
  alone h h' := Piece.mk.inj (Option.some.inj (h.symm.trans h'))

theorem Shows.has_eq (h : b.Shows M) (c : Color) : b.Has c = M c := by
  funext pt u
  apply propext
  rw [Has, h.color, h.type]
  constructor
  · rintro ⟨⟨qt, hqt⟩, c', hc'⟩
    obtain ⟨rfl, rfl⟩ := h.alone hqt hc'
    exact hqt
  · exact fun hu => ⟨⟨pt, hu⟩, c, hu⟩

theorem Shows.mem_occupied (h : b.Shows M) : u ∈ b.occupied ↔ ∃ c pt, M c pt u := by
  rw [ShogiBoard.mem_occupied]
  exact exists_congr fun c => h.color c u

theorem mem_byColor_clearMan {c' : Color} :
    u ∈ (b.clearMan c pt s).byColor c' ↔ u ∈ b.byColor c' ∧ (c' = c → u ≠ s) := by
  change u ∈ Function.update b.byColor c ((b.byColor c).clear s) c' ↔ _
  by_cases hc : c' = c
  · subst hc
    rw [Function.update_self, Bitboard.mem_clear, forall_prop_of_true rfl]
  · rw [Function.update_of_ne hc]
    exact (and_iff_left fun h => absurd h hc).symm

theorem mem_byType_clearMan {qt : PieceType} :
    u ∈ (b.clearMan c pt s).byType qt ↔ u ∈ b.byType qt ∧ (qt = pt → u ≠ s) := by
  change u ∈ Function.update b.byType pt ((b.byType pt).clear s) qt ↔ _
  by_cases hq : qt = pt
  · subst hq
    rw [Function.update_self, Bitboard.mem_clear, forall_prop_of_true rfl]
  · rw [Function.update_of_ne hq]
    exact (and_iff_left fun h => absurd h hq).symm

theorem Shows.clearMan (h : b.Shows M) (hs : M c pt s) :
    (b.clearMan c pt s).Shows fun c => (M c).without s where
  color c' u := by
    rw [mem_byColor_clearMan, h.color]
    constructor
    · rintro ⟨⟨qt, hu⟩, hne⟩
      exact ⟨qt, hu, fun e => hne (h.alone (e ▸ hu) hs).1 e⟩
    · exact fun ⟨qt, hu, hne⟩ => ⟨⟨qt, hu⟩, fun _ => hne⟩
  type qt u := by
    rw [mem_byType_clearMan, h.type]
    constructor
    · rintro ⟨⟨c', hu⟩, hne⟩
      exact ⟨c', hu, fun e => hne (h.alone (e ▸ hu) hs).2 e⟩
    · exact fun ⟨c', hu, hne⟩ => ⟨⟨c', hu⟩, fun _ => hne⟩
  alone h1 h2 := h.alone h1.1 h2.1

theorem Shows.congr {M' : Color → Men} (h : b.Shows M) (hM : M = M') : b.Shows M' := hM ▸ h

end Shows

/-! ## The board of the test -/

/-- The board of the test shows a position but for the man on `t`, with which the side that moved last attacks
the king on `k`. -/
structure Bare (b : ShogiBoard) (q : Position) (pt : PieceType) (k t : Square) : Prop where
  shows : b.Shows fun c => (q.men c).without t
  moved : q.men (~~~q.turn) pt t
  king : q.KingAt q.turn k
  kingSquare : b.kingSquare q.turn = k
  board : ∀ xt s, q.men q.turn xt s → (b.board s).type = xt
  hand : ∀ xt, (b.hand q.turn).count xt = q.hand q.turn xt

namespace Bare

variable {b : ShogiBoard} {q : Position} {pt xt : PieceType} {k t s x u : Square} {occ : Bitboard}

theorem men_dst (h : b.Bare q pt k t) {qt : PieceType} : q.men (~~~q.turn) qt t ↔ qt = pt :=
  ⟨fun hq => Position.men_unique hq h.moved, fun e => e ▸ h.moved⟩

theorem ne_dst (h : b.Bare q pt k t) (hs : q.men q.turn xt s) : s ≠ t := by
  rintro rfl
  exact Position.not_men_other hs h.moved

theorem mem_own (h : b.Bare q pt k t) : s ∈ b.pieces q.turn ↔ ∃ xt, q.men q.turn xt s := by
  rw [pieces, h.shows.color]
  exact exists_congr fun xt => and_iff_left_of_imp h.ne_dst

theorem has_own (h : b.Bare q pt k t) : b.Has q.turn = q.men q.turn := by
  rw [h.shows.has_eq]
  funext xt s
  exact propext (and_iff_left_of_imp h.ne_dst)

theorem occupied_eq (h : b.Bare q pt k t) : (· ∈ b.occupied) = fun u => q.Occupied u ∧ u ≠ t := by
  funext u
  apply propext
  rw [h.shows.mem_occupied, Position.occupied_iff]
  simp only [Men.without, exists_and_right]

theorem occupied_set (h : b.Bare q pt k t) : (· ∈ b.occupied.set t) = q.Occupied := by
  funext u
  apply propext
  rw [Bitboard.mem_set, show u ∈ b.occupied ↔ q.Occupied u ∧ u ≠ t from iff_of_eq (congrFun h.occupied_eq u)]
  constructor
  · rintro (hu | rfl)
    · exact hu.1
    · exact Position.occupied_of_men h.moved
  · intro hu
    by_cases hut : u = t
    · exact Or.inr hut
    · exact Or.inl ⟨hu, hut⟩

theorem isSquareAttacked_iff (h : b.Bare q pt k t) : b.isSquareAttacked u occ (~~~q.turn) = true ↔
    ((q.men (~~~q.turn)).without t).Attacked (~~~q.turn) (· ∈ occ) u := by
  rw [ShogiBoard.isSquareAttacked_iff, h.shows.has_eq]
  exact Iff.rfl

/-! ### The king -/

/-- The king can escape iff it has a safe move. -/
theorem canKingEscape_iff (h : b.Bare q pt k t) (hocc : (· ∈ occ) = q.Occupied) :
    b.canKingEscapeAfterMateProbe (~~~q.turn) t occ (pieceAttacks pt (~~~q.turn) t (occ.clear k)) = true ↔
      ∃ r, q.Allowed r ∧ r.src = some k ∧ ¬(q.play r).InCheck q.turn := by
  have hman := (h.king k).mpr rfl
  have hclear : ∀ u, u ∈ occ.clear k ↔ q.Occupied u ∧ u ≠ k := fun u => by
    rw [Bitboard.mem_clear, ← hocc]
  have htargets : ∀ u, u ∈ (if (kingEffectBB k).test t then (kingEffectBB k &&& ~~~b.pieces q.turn).set t
      else kingEffectBB k &&& ~~~b.pieces q.turn) ↔ q.Goes .king k u := by
    intro u
    have hgoes : u ∈ kingEffectBB k &&& ~~~b.pieces q.turn ↔ q.Goes .king k u := by
      rw [Bitboard.mem_and, Bitboard.mem_compl, h.mem_own, not_exists, mem_kingEffectBB q.turn]
      exact ⟨fun hu => ⟨hman, (attacks_iff_reach rfl).mpr hu.1, hu.2⟩,
        fun hu => ⟨(attacks_iff_reach rfl).mp hu.attacks, hu.free⟩⟩
    split
    · rename_i ht
      rw [Bitboard.mem_set, hgoes]
      refine or_iff_left_of_imp fun hut => hgoes.mp ?_
      rw [hut, Bitboard.mem_and, Bitboard.mem_compl, h.mem_own]
      exact ⟨ht, fun ⟨xt, hx⟩ => h.ne_dst hx rfl⟩
    · exact hgoes
  have hsafe : ∀ u, (if u = t then !b.isSquareAttacked u ((occ.clear k).clear t) (~~~q.turn)
      else if (pieceAttacks pt (~~~q.turn) t (occ.clear k)).test u then false
      else !b.isSquareAttacked u (occ.clear k) (~~~q.turn)) = true ↔
      ¬(q.men (~~~q.turn)).Attacked (~~~q.turn) (fun v => q.Occupied v ∧ v ≠ k) u := by
    intro u
    rw [Men.attacked_iff_of_man fun qt => h.men_dst]
    have hsquare : (fun v => q.Occupied v ∧ v ≠ k) = (· ∈ occ.clear k) :=
      funext fun v => propext (hclear v).symm
    by_cases hu : u = t
    · -- the man that is captured does not protect itself
      subst hu
      rw [if_pos rfl, Bool.not_eq_true', ← Bool.not_eq_true, h.isSquareAttacked_iff, hsquare]
      refine not_congr ((Men.attacked_congr fun v hv => ?_).trans (or_iff_right ?_).symm)
      · rw [Bitboard.mem_clear (b := occ.clear k)]
        exact and_iff_left hv
      · exact fun ha => Men.not_reach_self ha.1
    · rw [if_neg hu, hsquare]
      have hmoved : (pieceAttacks pt (~~~q.turn) t (occ.clear k)).test u = true ↔
          Attacks pt (~~~q.turn) (· ∈ occ.clear k) t u := mem_pieceAttacks
      by_cases ha : Attacks pt (~~~q.turn) (· ∈ occ.clear k) t u
      · rw [if_pos (hmoved.mpr ha)]
        exact iff_of_false Bool.false_ne_true fun hno => hno (Or.inl ha)
      · rw [if_neg fun hm => ha (hmoved.mp hm), Bool.not_eq_true', ← Bool.not_eq_true, h.isSquareAttacked_iff,
          or_iff_right ha]
  simp only [canKingEscapeAfterMateProbe, Color.compl_compl, h.kingSquare, List.any_eq_true, Bitboard.mem_squares,
    htargets, hsafe]
  constructor
  · rintro ⟨u, goes, hu⟩
    have hattacked := Position.inCheck_play_king h.king goes.moves_normal
    exact ⟨.normal k u, .normal goes ((canLeave_iff rfl).mpr rfl), rfl, fun hcheck => hu (hattacked.mp hcheck)⟩
  · rintro ⟨r, ha, hsrc, hr⟩
    obtain ⟨rt, hm⟩ := ha.moves hsrc
    obtain rfl := Position.men_unique hm.goes.man hman
    exact ⟨r.dst, hm.goes, fun hu => hr ((Position.inCheck_play_king h.king hm).mpr hu)⟩

/-! ### The checks -/

theorem checker_iff (h : b.Bare q pt k t) (hocc : (· ∈ occ) = q.Occupied) : q.Checker q.turn k x ↔
    x = t ∧ Attacks pt (~~~q.turn) q.Occupied t k ∨ x ∈ b.attackersTo k occ (~~~q.turn) := by
  rw [Position.Checker, Men.checks_iff_of_man fun qt => h.men_dst, mem_attackersTo, h.shows.has_eq, hocc]
  exact Iff.rfl

theorem directCheck_iff (hocc : (· ∈ occ) = q.Occupied) :
    (pieceAttacks pt (~~~q.turn) t (occ.clear k)).test k = true ↔ Attacks pt (~~~q.turn) q.Occupied t k := by
  have hmem : (pieceAttacks pt (~~~q.turn) t (occ.clear k)).test k = true ↔
      Attacks pt (~~~q.turn) (· ∈ occ.clear k) t k := mem_pieceAttacks
  rw [hmem, ← hocc]
  refine and_congr_right fun _ => LineSystem.clear_congr_of_ne fun u _ hu => ?_
  rw [Bitboard.mem_clear]
  exact and_iff_left hu

/-- The pins are those without the man on `t`. -/
theorem mem_pinned (h : b.Bare q pt k t) (hs : q.men q.turn xt s) :
    (b.computeBlockersForKing q.turn &&& b.pieces q.turn).test s = true ↔ q.PinnedWithout k t s := by
  have hmem : (b.computeBlockersForKing q.turn &&& b.pieces q.turn).test s = true ↔
      s ∈ b.computeBlockersForKing q.turn ∧ s ∈ b.pieces q.turn := Bitboard.mem_and
  have hocc : s ∈ b.occupied := h.shows.mem_occupied.mpr ⟨_, xt, hs, h.ne_dst hs⟩
  rw [hmem, and_iff_left (h.mem_own.mpr ⟨xt, hs⟩), mem_computeBlockersForKing, and_iff_right hocc, h.kingSquare,
    h.shows.has_eq, h.occupied_eq]
  exact Iff.rfl

/-! ### Other men -/

theorem canCapture_iff (h : b.Bare q pt k t) (hocc : (· ∈ occ) = q.Occupied) :
    b.canDefenderCaptureMateChecker q.turn x occ = true ↔ ∃ s xt, q.men q.turn xt s ∧ s ≠ k ∧
      Attacks xt q.turn q.Occupied s x ∧ (q.PinnedWithout k t s → OnLine s k x) := by
  have hmem : ∀ s, s ∈ (b.attackersTo x occ q.turn).clear k ↔
      (∃ xt, q.men q.turn xt s ∧ Attacks xt q.turn q.Occupied s x) ∧ s ≠ k := by
    intro s
    rw [Bitboard.mem_clear, mem_attackersTo, h.has_own, hocc]
  have hguard : ∀ {B : Bitboard} {f : Square → Bool}, (if B.empty then false else B.squares.any f) = true ↔
      ∃ s ∈ B, f s = true := by
    intro B f
    split
    · rename_i hempty
      exact iff_of_false Bool.false_ne_true fun ⟨s, hs, _⟩ => Bitboard.empty_iff.mp hempty s hs
    · rw [List.any_eq_true]
      simp only [Bitboard.mem_squares]
  rw [canDefenderCaptureMateChecker, h.kingSquare]
  refine hguard.trans (exists_congr fun s => ?_)
  rw [hmem s]
  constructor
  · rintro ⟨⟨⟨xt, hs, ha⟩, hsk⟩, hpin⟩
    refine ⟨xt, hs, hsk, ha, fun hwithout => ?_⟩
    rw [(h.mem_pinned hs).mpr hwithout, Bool.not_true, Bool.false_or] at hpin
    exact mem_lineBB.mp hpin
  · rintro ⟨xt, hs, hsk, ha, hpin⟩
    refine ⟨⟨⟨xt, hs, ha⟩, hsk⟩, ?_⟩
    cases hp : (b.computeBlockersForKing q.turn &&& b.pieces q.turn).test s with
    | false => rfl
    | true => exact mem_lineBB.mpr (hpin ((h.mem_pinned hs).mp hp))

/-- The drops of one type onto squares between. -/
theorem any_dropTargets_iff (h : b.Bare q pt k t) {targets : Bitboard} (hempty : ∀ u ∈ targets, q.man u = none)
    (hxt : xt.isHandPiece = true) : ((b.hand q.turn).has xt &&
      (dropTargets q.turn (b.piecesOf q.turn .pawn) xt targets).any) = true ↔
      ∃ u ∈ targets, q.Allowed (.drop xt u) := by
  have hpawns : ∀ v, v ∈ b.piecesOf q.turn .pawn ↔ q.men q.turn .pawn v := fun v => by
    rw [mem_piecesOf, h.has_own]
  rw [Bool.and_eq_true, Hand.has_iff, h.hand, Bitboard.any_iff, exists_and_left.symm]
  refine exists_congr fun u => ?_
  rw [mem_dropTargets hxt]
  constructor
  · rintro ⟨hheld, hu, hleave, hsingle⟩
    exact ⟨hu, .drop hxt hheld (hempty u hu) hleave fun e v hv => hsingle e v ((hpawns v).mpr hv)⟩
  · rintro ⟨hu, ha⟩
    cases ha with
    | drop able held empty stay single =>
      exact ⟨held, hu, stay, fun e v hv => single e v ((hpawns v).mp hv)⟩

/-- The squares between the king and the checker that a man attacks. -/
theorem mem_targets (h : b.Bare q pt k t) (hocc : (· ∈ occ) = q.Occupied) (hs : q.men q.turn xt s) :
    u ∈ pieceAttacks (b.board s).type q.turn s occ &&& betweenBB k x ↔
      Attacks xt q.turn q.Occupied s u ∧ Between k u x := by
  rw [Bitboard.mem_and, mem_pieceAttacks, mem_betweenBB, hocc, h.board xt s hs]

/-- The answer `CanDefenderInterposeMateCheck` gives for a man. -/
theorem interposes_iff (h : b.Bare q pt k t) (hocc : (· ∈ occ) = q.Occupied) (hs : q.men q.turn xt s) :
    ((if (pieceAttacks (b.board s).type q.turn s occ &&& betweenBB k x).empty then false
      else if !(b.computeBlockersForKing q.turn &&& b.pieces q.turn).test s then true
      else (pieceAttacks (b.board s).type q.turn s occ &&& betweenBB k x &&& lineBB s k).any) = true ↔
      ∃ u, Attacks xt q.turn q.Occupied s u ∧ Between k u x ∧ (q.PinnedWithout k t s → OnLine s k u)) := by
  have hpinned := h.mem_pinned hs
  split
  · rename_i hempty
    refine iff_of_false Bool.false_ne_true ?_
    rintro ⟨u, ha, hb, -⟩
    exact Bitboard.empty_iff.mp hempty u ((h.mem_targets hocc hs).mpr ⟨ha, hb⟩)
  rename_i hsome
  split
  · rename_i hfree
    rw [Bool.not_eq_true', ← Bool.not_eq_true, hpinned] at hfree
    refine iff_of_true rfl ?_
    rw [Bitboard.empty, Bool.not_eq_true', Bool.not_eq_false] at hsome
    obtain ⟨u, hu⟩ := Bitboard.any_iff.mp hsome
    obtain ⟨ha, hb⟩ := (h.mem_targets hocc hs).mp hu
    exact ⟨u, ha, hb, fun hw => absurd hw hfree⟩
  · rename_i hpin
    rw [Bool.not_eq_true', Bool.not_eq_false, hpinned] at hpin
    rw [Bitboard.any_iff]
    refine exists_congr fun u => ?_
    rw [Bitboard.mem_and, h.mem_targets hocc hs, mem_lineBB, and_assoc, forall_prop_of_true hpin]

theorem mem_emptyBetween (hocc : (· ∈ occ) = q.Occupied) :
    u ∈ betweenBB k x &&& ~~~occ ↔ Between k u x ∧ q.man u = none := by
  have hmem : u ∈ occ ↔ q.Occupied u := iff_of_eq (congrFun hocc u)
  rw [Bitboard.mem_and, mem_betweenBB, Bitboard.mem_compl, hmem, Position.Occupied, not_not]

/-- The answer for the drops. -/
theorem dropsBetween_iff (h : b.Bare q pt k t) (hocc : (· ∈ occ) = q.Occupied) :
    (PieceType.handTypes.any fun type => (b.hand q.turn).has type &&
      (dropTargets q.turn (b.piecesOf q.turn .pawn) type (betweenBB k x &&& ~~~occ)).any) = true ↔
      ∃ xt u, q.Allowed (.drop xt u) ∧ Between k u x := by
  have hempty : ∀ u ∈ betweenBB k x &&& ~~~occ, q.man u = none := fun u hu => ((mem_emptyBetween hocc).mp hu).2
  rw [List.any_eq_true]
  refine exists_congr fun xt => ?_
  constructor
  · rintro ⟨hxt, hany⟩
    obtain ⟨u, hu, ha⟩ := (h.any_dropTargets_iff hempty (PieceType.mem_handTypes.mp hxt)).mp hany
    exact ⟨u, ha, ((mem_emptyBetween hocc).mp hu).1⟩
  · rintro ⟨u, ha, hb⟩
    have hdrop := ha
    cases hdrop with
    | drop able held free stay single =>
      exact ⟨PieceType.mem_handTypes.mpr able,
        (h.any_dropTargets_iff hempty able).mpr ⟨u, (mem_emptyBetween hocc).mpr ⟨hb, free⟩, ha⟩⟩

theorem canInterpose_iff (h : b.Bare q pt k t) (hocc : (· ∈ occ) = q.Occupied) :
    b.canDefenderInterposeMateCheck q.turn (betweenBB k x) occ = true ↔
      (∃ s xt u, q.men q.turn xt s ∧ s ≠ k ∧ Attacks xt q.turn q.Occupied s u ∧ Between k u x ∧
        (q.PinnedWithout k t s → OnLine s k u)) ∨
      ∃ xt u, q.Allowed (.drop xt u) ∧ Between k u x := by
  have hmen : (((b.pieces q.turn).clear k).squares.any fun s =>
      if (pieceAttacks (b.board s).type q.turn s occ &&& betweenBB k x).empty then false
        else if !(b.computeBlockersForKing q.turn &&& b.pieces q.turn).test s then true
        else (pieceAttacks (b.board s).type q.turn s occ &&& betweenBB k x &&& lineBB s k).any) = true ↔
      ∃ s xt u, q.men q.turn xt s ∧ s ≠ k ∧ Attacks xt q.turn q.Occupied s u ∧ Between k u x ∧
        (q.PinnedWithout k t s → OnLine s k u) := by
    rw [List.any_eq_true]
    refine exists_congr fun s => ?_
    rw [Bitboard.mem_squares, Bitboard.mem_clear, h.mem_own]
    constructor
    · rintro ⟨⟨⟨xt, hs⟩, hsk⟩, hany⟩
      obtain ⟨u, hu⟩ := (h.interposes_iff hocc hs).mp hany
      exact ⟨xt, u, hs, hsk, hu⟩
    · rintro ⟨xt, u, hs, hsk, hu⟩
      exact ⟨⟨⟨xt, hs⟩, hsk⟩, (h.interposes_iff hocc hs).mpr ⟨u, hu⟩⟩
  have hdrops := h.dropsBetween_iff (x := x) hocc
  rw [canDefenderInterposeMateCheck, h.kingSquare, ← hmen, ← hdrops]
  by_cases hnone : (betweenBB k x).empty = true
  · have hno : ∀ u, ¬Between k u x := fun u hu => Bitboard.empty_iff.mp hnone u (mem_betweenBB.mpr hu)
    rw [if_pos hnone, hmen, hdrops]
    refine iff_of_false Bool.false_ne_true ?_
    rintro (⟨s, xt, u, -, -, -, hb, -⟩ | ⟨xt, u, -, hb⟩)
    · exact hno u hb
    · exact hno u hb
  · rw [if_neg hnone]
    dsimp only
    split
    · rename_i hany
      exact iff_of_true rfl (Or.inl hany)
    · rename_i hany
      rw [or_iff_right hany]
      split
      · rename_i hfull
        rw [hdrops]
        refine iff_of_false Bool.false_ne_true ?_
        rintro ⟨xt, u, ha, hb⟩
        cases ha with
        | drop able held free stay single =>
          exact Bitboard.empty_iff.mp hfull u ((mem_emptyBetween hocc).mpr ⟨hb, free⟩)
      · exact Iff.rfl

/-! ### The test -/

/-- A man that goes to a square has an allowed move there. -/
theorem exists_allowed_of_goes (goes : q.Goes xt s u) : ∃ r, q.Allowed r ∧ r.src = some s ∧ r.dst = u := by
  have hvalid : xt.isValid = true := by
    have hreach := goes.attacks.1
    rw [reach_iff] at hreach
    cases xt with
    | none | reserved => exact hreach.elim
    | _ => rfl
  by_cases hstay : CanLeave xt q.turn u
  · exact ⟨.normal s u, .normal goes hstay, rfl, rfl⟩
  · -- a man that may not stay can promote
    rw [canLeave_iff hvalid, Bool.not_eq_false] at hstay
    have hpromote : xt.canPromote = true ∧ u.inPromotionZone q.turn = true := by
      have hrank := u.rank_lt
      rw [mustPromote] at hstay
      split at hstay
      · cases hstay
      rename_i hlow
      refine ⟨?_, ?_⟩
      · cases xt with
        | pawn | lance | knight => rfl
        | _ => exact absurd ⟨by decide, by decide, by decide⟩ hlow
      · have hrel : relativeRank u.rank q.turn ≤ 1 := by
          split at hstay
          · exact of_decide_eq_true hstay
          · exact (beq_iff_eq.mp hstay).trans_le (Nat.zero_le 1)
        cases hturn : q.turn with
        | black =>
          rw [hturn, relativeRank] at hrel
          exact decide_eq_true (hrel.trans (by decide))
        | white =>
          rw [hturn, relativeRank] at hrel
          exact decide_eq_true (by omega)
    exact ⟨.promotion s u, .promotion goes hpromote.1 (Or.inr hpromote.2), rfl, rfl⟩

/-- Against a single check the two tests count the answers of other men. -/
theorem answers_iff (h : b.Bare q pt k t) (hocc : (· ∈ occ) = q.Occupied) (hx : q.Checker q.turn k x)
    (hone : ∀ y, q.Checker q.turn k y → y = x) : (b.canDefenderCaptureMateChecker q.turn x occ = true ∨
      b.canDefenderInterposeMateCheck q.turn (betweenBB k x) occ = true) ↔ ∃ r, q.Counted k t r := by
  have hcounted : ∀ {s xt u}, q.men q.turn xt s → s ≠ k → Attacks xt q.turn q.Occupied s u → Resolves k x u →
      (q.PinnedWithout k t s → OnLine s k u) → ∃ r, q.Counted k t r := by
    intro s xt u hs hsk ha hres hpin
    obtain ⟨r, hr, hsrc, rfl⟩ := exists_allowed_of_goes (goes_of_resolves hx hres hs ha)
    refine ⟨r, hr, fun e => hsk (Option.some.inj (hsrc.symm.trans e)), fun y hy => hone y hy ▸ hres, fun s' hs' => ?_⟩
    obtain rfl := Option.some.inj (hsrc.symm.trans hs')
    exact hpin
  rw [h.canCapture_iff hocc, h.canInterpose_iff hocc]
  constructor
  · rintro (⟨s, xt, hs, hsk, ha, hpin⟩ | ⟨s, xt, u, hs, hsk, ha, hb, hpin⟩ | ⟨xt, u, ha, hb⟩)
    · exact hcounted hs hsk ha (Or.inl rfl) hpin
    · exact hcounted hs hsk ha (Or.inr hb) hpin
    · exact ⟨_, ha, nofun, fun y hy => hone y hy ▸ Or.inr hb, nofun⟩
  · rintro ⟨r, ha, hother, hmeets, hpins⟩
    have hres := hmeets x hx
    cases hsrc : r.src with
    | none =>
      cases ha with
      | normal => cases hsrc
      | promotion => cases hsrc
      | @drop xt u able held empty stay single =>
        rcases hres with hxu | hb
        · obtain ⟨qt, hman, -⟩ := hx
          exact absurd (hxu ▸ empty) (Position.occupied_of_men hman)
        · exact Or.inr (Or.inr ⟨xt, u, .drop able held empty stay single, hb⟩)
    | some s =>
      obtain ⟨xt, hm⟩ := ha.moves hsrc
      have hsk : s ≠ k := fun e => hother (hsrc.trans (congrArg some e))
      rcases hres with hxu | hb
      · refine Or.inl ⟨s, xt, hm.goes.man, hsk, hxu ▸ hm.goes.attacks, hxu ▸ hpins s hsrc⟩
      · exact Or.inr (Or.inl ⟨s, xt, r.dst, hm.goes.man, hsk, hm.goes.attacks, hb, hpins s hsrc⟩)

end Bare

/-- More than one check. -/
theorem exists_two_of_count {D : Bitboard} {t : Square} {direct : Bool} (ht : t ∉ D)
    (hcount : 1 < D.popCount + if direct then 1 else 0) :
    ∃ x y, x ≠ y ∧ (x = t ∧ direct = true ∨ x ∈ D) ∧ (y = t ∧ direct = true ∨ y ∈ D) := by
  have hnodup := D.nodup_squares
  have hmem : ∀ {x}, x ∈ D.squares → x ∈ D := Bitboard.mem_squares.mp
  rw [Bitboard.popCount] at hcount
  match hD : D.squares with
  | [] =>
    rw [hD, List.length_nil] at hcount
    split at hcount <;> omega
  | [x] =>
    rw [hD, List.length_singleton] at hcount
    have hx : x ∈ D := hmem (hD ▸ List.mem_cons_self)
    cases direct with
    | false => exact absurd hcount (by decide)
    | true => exact ⟨t, x, fun e => ht (e ▸ hx), Or.inl ⟨rfl, rfl⟩, Or.inr hx⟩
  | x :: y :: l =>
    rw [hD, List.nodup_cons] at hnodup
    exact ⟨x, y, fun e => hnodup.1 (e ▸ List.mem_cons_self), Or.inr (hmem (hD ▸ List.mem_cons_self)),
      Or.inr (hmem (hD ▸ List.mem_cons_of_mem _ List.mem_cons_self))⟩

/-- A single check. -/
theorem sole_of_count {D : Bitboard} {t : Square} {direct : Bool} (hsome : direct = true ∨ ∃ x, x ∈ D)
    (hcount : ¬1 < D.popCount + if direct then 1 else 0) :
    let x := soleChecker D direct t
    (x = t ∧ direct = true ∨ x ∈ D) ∧ ∀ y, (y = t ∧ direct = true ∨ y ∈ D) → y = x := by
  have hmem : ∀ x, x ∈ D ↔ x ∈ D.squares := fun x => Bitboard.mem_squares.symm
  rw [Bitboard.popCount] at hcount
  simp only [hmem] at hsome ⊢
  cases direct with
  | true =>
    rw [if_pos rfl] at hcount
    have hnil : D.squares = [] := List.eq_nil_of_length_eq_zero (by omega)
    refine ⟨Or.inl ⟨rfl, rfl⟩, fun y hy => hy.elim And.left fun hmem => ?_⟩
    rw [hnil] at hmem
    cases hmem
  | false =>
    obtain ⟨x, hx⟩ := hsome.resolve_left Bool.false_ne_true
    rw [if_neg Bool.false_ne_true] at hcount
    obtain ⟨z, hz⟩ : ∃ z, D.squares = [z] :=
      List.length_eq_one_iff.mp (le_antisymm (by omega) (List.length_pos_of_mem hx))
    have hsole : soleChecker D false t = z := by
      change D.peek.getD t = z
      rw [Bitboard.peek, hz]
      rfl
    rw [hsole, hz]
    refine ⟨Or.inr List.mem_cons_self, fun y hy => hy.elim (fun hno => by cases hno.2) List.mem_singleton.mp⟩

theorem kingSquare_mateProbeCaptureRemoval {b : ShogiBoard} {t : Square} :
    (b.mateProbeCaptureRemoval t).kingSquare = b.kingSquare := by
  rw [mateProbeCaptureRemoval]
  split <;> rfl

/-- The test of a move asks whether the position after it looks like a mate. -/
theorem isMateAfterMateProbe_iff {b : ShogiBoard} {q : Position} {us : Color} {pt : PieceType} {k t : Square}
    (hturn : q.turn = ~~~us) (h : (b.mateProbeCaptureRemoval t).Bare q pt k t) :
    b.isMateAfterMateProbe us pt t = true ↔ q.LooksMate k t := by
  obtain rfl : us = ~~~q.turn := by rw [hturn, Color.compl_compl]
  have hking := h.kingSquare
  rw [kingSquare_mateProbeCaptureRemoval] at hking
  rw [isMateAfterMateProbe]
  simp only [Color.compl_compl, hking]
  generalize b.mateProbeCaptureRemoval t = c at *
  have hocc := h.occupied_set
  generalize c.occupied.set t = occ at *
  have hdirect : (pieceAttacks pt (~~~q.turn) t (occ.clear k)).test k = true ↔ Attacks pt (~~~q.turn) q.Occupied t k :=
    Bare.directCheck_iff hocc
  have hchecker : ∀ x, q.Checker q.turn k x ↔
      x = t ∧ (pieceAttacks pt (~~~q.turn) t (occ.clear k)).test k = true ∨ x ∈ c.attackersTo k occ (~~~q.turn) :=
    fun x => by rw [hdirect, h.checker_iff hocc]
  have ht : t ∉ c.attackersTo k occ (~~~q.turn) := by
    rw [mem_attackersTo, h.shows.has_eq]
    exact fun ⟨_, hman, _⟩ => hman.2 rfl
  have hescape := h.canKingEscape_iff hocc
  have hincheck := Position.inCheck_iff_checker h.king
  generalize (pieceAttacks pt (~~~q.turn) t (occ.clear k)).test k = direct at *
  by_cases hnone : (!direct && (c.attackersTo k occ (~~~q.turn)).empty) = true
  · rw [if_pos hnone]
    refine iff_of_false Bool.false_ne_true fun hmate => ?_
    rw [Bool.and_eq_true, Bool.not_eq_true', Bitboard.empty_iff] at hnone
    obtain ⟨x, hx⟩ := hincheck.mp hmate.check
    rcases (hchecker x).mp hx with ⟨-, hd⟩ | hx
    · exact Bool.false_ne_true (hnone.1.symm.trans hd)
    · exact hnone.2 x hx
  rw [if_neg hnone]
  have hsome : direct = true ∨ ∃ x, x ∈ c.attackersTo k occ (~~~q.turn) := by
    by_contra hno
    rw [not_or, not_exists, Bool.not_eq_true] at hno
    exact hnone (by rw [hno.1, Bitboard.empty_iff.mpr hno.2]; rfl)
  by_cases hking : c.canKingEscapeAfterMateProbe (~~~q.turn) t occ (pieceAttacks pt (~~~q.turn) t (occ.clear k)) = true
  · rw [if_pos hking]
    obtain ⟨r, ha, hsrc, hr⟩ := hescape.mp hking
    exact iff_of_false Bool.false_ne_true fun hmate => hr (hmate.king r ha hsrc)
  rw [if_neg hking]
  have hstays : ∀ r, q.Allowed r → r.src = some k → (q.play r).InCheck q.turn := fun r ha hsrc => by
    by_contra hr
    exact hking (hescape.mpr ⟨r, ha, hsrc, hr⟩)
  by_cases hcount : 1 < (c.attackersTo k occ (~~~q.turn)).popCount + if direct = true then 1 else 0
  · -- no other man meets two checks
    rw [if_pos hcount]
    obtain ⟨x, y, hne, hx, hy⟩ := exists_two_of_count ht hcount
    refine iff_of_true rfl ⟨hincheck.mpr ⟨x, (hchecker x).mpr hx⟩, hstays, fun r hr => hne ?_⟩
    exact Men.eq_of_resolves Position.men_subset_occupied ((hchecker x).mpr hx) ((hchecker y).mpr hy)
      (hr.meets x ((hchecker x).mpr hx)) (hr.meets y ((hchecker y).mpr hy))
  · rw [if_neg hcount]
    obtain ⟨hx, hone⟩ := sole_of_count (t := t) hsome hcount
    have hanswers := h.answers_iff hocc ((hchecker _).mpr hx) fun y hy => hone y ((hchecker y).mp hy)
    generalize soleChecker (c.attackersTo k occ (~~~q.turn)) direct t = x at *
    have hmate : q.LooksMate k t ↔ ¬∃ r, q.Counted k t r :=
      ⟨fun hmate ⟨r, hr⟩ => hmate.others r hr,
        fun hno => ⟨hincheck.mpr ⟨x, (hchecker x).mpr hx⟩, hstays, fun r hr => hno ⟨r, hr⟩⟩⟩
    rw [hmate, ← hanswers]
    by_cases hcapture : c.canDefenderCaptureMateChecker q.turn x occ = true
    · rw [if_pos hcapture]
      exact iff_of_false Bool.false_ne_true fun hno => hno (Or.inl hcapture)
    · rw [if_neg hcapture, or_iff_right hcapture, Bool.not_eq_true', ← Bool.not_eq_true]

end ShogiBoard

end Shogi
