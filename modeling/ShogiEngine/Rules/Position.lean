import ShogiEngine.Rules.Attack

/-!
# The rules of shogi

A position as the rules see it, the movements and drops they allow, and the legal moves. This
is the statement of what the move generators of the engine are for; nothing here is
translated from the source.

## Main definitions

- `Position.Allowed`: piece movements and drops, before the safety of the king
- `Position.play`: the position after a move
- `Position.Legal`, `Position.Checkmate`

## Main results

- `Position.legal_iff`: legal moves in the usual words
- `Position.inCheck_play_king`, `inCheck_play_move`, `inCheck_play_drop`: the safety of the
  mover's king in terms of the position before the move
-/

namespace Shogi

/-- A position: the men on the board, the men in hand and the side to move. -/
@[ext]
structure Position where
  man : Square → Option Piece
  hand : Color → PieceType → Nat
  turn : Color

namespace Position

variable (p : Position)

/-- The men of one side. -/
def men (c : Color) : Men := fun pt s => p.man s = some ⟨c, pt⟩

instance (c : Color) (pt : PieceType) (s : Square) : Decidable (p.men c pt s) :=
  inferInstanceAs (Decidable (_ = _))

def Occupied (s : Square) : Prop := p.man s ≠ none

instance : DecidablePred p.Occupied := fun s => inferInstanceAs (Decidable (p.man s ≠ none))

/-- Some king of colour `c` is attacked. -/
def InCheck (c : Color) : Prop :=
  ∃ k, p.men c .king k ∧ (p.men (~~~c)).Attacked (~~~c) p.Occupied k

/-- `k` is the only king of colour `c`. -/
def KingAt (c : Color) (k : Square) : Prop := ∀ s, p.men c .king s ↔ s = k

end Position

/-- A man that could never move again must not be left on its square. -/
def CanLeave (pt : PieceType) (c : Color) (t : Square) : Prop := ∃ u, Reach pt c t u

instance (pt : PieceType) (c : Color) (t : Square) : Decidable (CanLeave pt c t) :=
  inferInstanceAs (Decidable (∃ u, Reach pt c t u))

namespace Position

variable (p : Position)

/-- A man of type `pt` goes from `s` to `t`: it attacks `t` and no own man stands there. -/
structure Goes (pt : PieceType) (s t : Square) : Prop where
  man : p.men p.turn pt s
  attacks : Attacks pt p.turn p.Occupied s t
  free : ∀ qt, ¬ p.men p.turn qt t

instance (pt : PieceType) (s t : Square) : Decidable (p.Goes pt s t) :=
  decidable_of_iff (p.men p.turn pt s ∧ Attacks pt p.turn p.Occupied s t ∧
    ∀ qt, ¬ p.men p.turn qt t) ⟨fun ⟨h1, h2, h3⟩ => ⟨h1, h2, h3⟩, fun ⟨h1, h2, h3⟩ => ⟨h1, h2, h3⟩⟩

/-- The movements and drops of the side to move. -/
inductive Allowed : Move → Prop
  | normal {pt : PieceType} {s t : Square} (goes : p.Goes pt s t)
      (stay : CanLeave pt p.turn t) : Allowed (.normal s t)
  | promotion {pt : PieceType} {s t : Square} (goes : p.Goes pt s t)
      (able : pt.canPromote = true)
      (zone : s.inPromotionZone p.turn = true ∨ t.inPromotionZone p.turn = true) :
      Allowed (.promotion s t)
  | drop {pt : PieceType} {t : Square} (able : pt.isHandPiece = true)
      (held : 0 < p.hand p.turn pt) (empty : p.man t = none) (stay : CanLeave pt p.turn t)
      (single : pt = .pawn → ∀ s, p.men p.turn .pawn s → s.file ≠ t.file) : Allowed (.drop pt t)

/-- The man that stands on the destination after a move. -/
def arriving : Move → Option Piece
  | .normal s _ => p.man s
  | .promotion s _ => (p.man s).map Piece.promote
  | .drop pt _ => some ⟨p.turn, pt⟩

/-- The mover's hand after a move. -/
def handAfter (m : Move) (pt : PieceType) : Nat :=
  match m with
  | .drop qt _ => if pt = qt then p.hand p.turn pt - 1 else p.hand p.turn pt
  | .normal _ t | .promotion _ t =>
    match p.man t with
    | some q =>
      if pt = q.type.unpromote ∧ pt.isHandPiece = true then p.hand p.turn pt + 1
      else p.hand p.turn pt
    | none => p.hand p.turn pt

/-- The position after a move. -/
def play (m : Move) : Position where
  man u := if u = m.dst then p.arriving m else if m.src = some u then none else p.man u
  hand c pt := if c = p.turn then p.handAfter m pt else p.hand c pt
  turn := ~~~p.turn

/-- A pawn is dropped in front of the enemy king. -/
def DropsPawnOnKing (m : Move) : Prop :=
  ∃ t k, m = .drop .pawn t ∧ p.men (~~~p.turn) .king k ∧ Reach .pawn p.turn t k

/-- The legal moves: allowed, leaving no own king attacked, and not a pawn drop in front of
the enemy king that has no legal answer. -/
inductive Legal : Position → Move → Prop
  | intro {p : Position} {m : Move} (allowed : p.Allowed m) (safe : ¬ (p.play m).InCheck p.turn)
      (answer : Move) (answered : p.DropsPawnOnKing m → Legal (p.play m) answer) : Legal p m

/-- The side to move is in check and has no legal move. -/
def Checkmate : Prop := p.InCheck p.turn ∧ ∀ m, ¬ p.Legal m

variable {p}

theorem legal_iff_answer {m : Move} : p.Legal m ↔ p.Allowed m ∧ ¬ (p.play m).InCheck p.turn ∧
    (p.DropsPawnOnKing m → ∃ m', (p.play m).Legal m') := by
  constructor
  · rintro ⟨h1, h2, m', h3⟩
    exact ⟨h1, h2, fun h => ⟨m', h3 h⟩⟩
  · rintro ⟨h1, h2, h3⟩
    by_cases h : p.DropsPawnOnKing m
    · obtain ⟨m', hm'⟩ := h3 h
      exact .intro h1 h2 m' fun _ => hm'
    · exact .intro h1 h2 m fun hd => absurd hd h

/-! ## The position after a move -/

theorem turn_play {m : Move} : (p.play m).turn = ~~~p.turn := rfl

theorem man_play_dst {m : Move} : (p.play m).man m.dst = p.arriving m := if_pos rfl

theorem man_play_of_ne {m : Move} {u : Square} (h : u ≠ m.dst) (h' : m.src ≠ some u) :
    (p.play m).man u = p.man u := by
  simp only [play, if_neg h, if_neg h']

theorem not_men_other {c : Color} {pt qt : PieceType} {s : Square} (h : p.men c pt s) :
    ¬ p.men (~~~c) qt s := by
  intro h'
  have := congrArg Piece.color (Option.some.inj (h.symm.trans h'))
  exact Color.ne_compl c this

theorem men_unique {c : Color} {pt qt : PieceType} {s : Square} (h : p.men c pt s)
    (h' : p.men c qt s) : pt = qt :=
  congrArg Piece.type (Option.some.inj (h.symm.trans h'))

theorem occupied_of_men {c : Color} {pt : PieceType} {s : Square} (h : p.men c pt s) :
    p.Occupied s := by
  intro hn
  rw [men, hn] at h
  cases h

theorem men_subset_occupied {c : Color} : ∀ pt s, p.men c pt s → p.Occupied s :=
  fun _ _ => occupied_of_men

theorem occupied_iff {s : Square} : p.Occupied s ↔ ∃ c pt, p.men c pt s := by
  constructor
  · intro h
    obtain ⟨q, hq⟩ := Option.ne_none_iff_exists'.mp h
    exact ⟨q.color, q.type, hq⟩
  · rintro ⟨c, pt, h⟩
    exact occupied_of_men h

/-- What a board move and its promotion have in common. -/
structure Moves (p : Position) (m : Move) (pt : PieceType) (s t : Square) : Prop where
  src : m.src = some s
  dst : m.dst = t
  goes : p.Goes pt s t
  arriving : ∃ qt, p.arriving m = some ⟨p.turn, qt⟩ ∧ (qt = .king ↔ pt = .king)

theorem Goes.ne {pt : PieceType} {s t : Square} (h : p.Goes pt s t) : s ≠ t :=
  fun e => h.free pt (e ▸ h.man)

theorem Goes.moves_normal {pt : PieceType} {s t : Square} (h : p.Goes pt s t) :
    p.Moves (.normal s t) pt s t := ⟨rfl, rfl, h, pt, h.man, Iff.rfl⟩

theorem promote_ne_king {pt : PieceType} (h : pt.canPromote = true) : pt.promote ≠ .king := by
  cases pt <;> first | decide | cases h

theorem ne_king_of_canPromote {pt : PieceType} (h : pt.canPromote = true) : pt ≠ .king := by
  rintro rfl
  cases h

theorem Goes.moves_promotion {pt : PieceType} {s t : Square} (h : p.Goes pt s t)
    (hpt : pt.canPromote = true) : p.Moves (.promotion s t) pt s t := by
  refine ⟨rfl, rfl, h, pt.promote, ?_, ?_⟩
  · rw [Position.arriving, h.man]
    rfl
  · exact iff_of_false (promote_ne_king hpt) (ne_king_of_canPromote hpt)

/-- An allowed move is a drop or a board move. -/
theorem Allowed.cases {m : Move} (h : p.Allowed m) :
    (∃ pt s t, p.Moves m pt s t) ∨
      ∃ pt t, m = .drop pt t ∧ p.man t = none ∧ pt.isHandPiece = true := by
  cases h with
  | normal goes _ => exact Or.inl ⟨_, _, _, goes.moves_normal⟩
  | promotion goes able _ => exact Or.inl ⟨_, _, _, goes.moves_promotion able⟩
  | drop able _ empty _ _ => exact Or.inr ⟨_, _, rfl, empty, able⟩

/-- An allowed move with a source square is a board move. -/
theorem Allowed.moves {m : Move} {s : Square} (h : p.Allowed m) (hs : m.src = some s) :
    ∃ pt, p.Moves m pt s m.dst := by
  rcases h.cases with ⟨pt, s', t, hm⟩ | ⟨pt, t, rfl, -⟩
  · cases hm.src.symm.trans hs
    exact ⟨pt, by rw [hm.dst]; exact hm⟩
  · cases hs

section Moves

variable {m : Move} {pt : PieceType} {s t : Square}

theorem Moves.man_dst (h : p.Moves m pt s t) : ∃ qt, (p.play m).man t = some ⟨p.turn, qt⟩ ∧
    (qt = .king ↔ pt = .king) := by
  obtain ⟨qt, hq, hk⟩ := h.arriving
  refine ⟨qt, ?_, hk⟩
  rw [← h.dst, man_play_dst, hq]

theorem Moves.man_src (h : p.Moves m pt s t) : (p.play m).man s = none := by
  have hne := h.goes.ne
  simp only [play, h.dst, if_neg hne, h.src, if_true]

theorem Moves.man_of_ne (h : p.Moves m pt s t) {u : Square} (hs : u ≠ s) (ht : u ≠ t) :
    (p.play m).man u = p.man u := by
  refine man_play_of_ne (h.dst ▸ ht) ?_
  rw [h.src]
  exact fun e => hs (Option.some.inj e).symm

theorem Moves.occupied (h : p.Moves m pt s t) {u : Square} :
    (p.play m).Occupied u ↔ afterMove p.Occupied s t u := by
  by_cases ht : u = t
  · subst ht
    obtain ⟨qt, hq, -⟩ := h.man_dst
    simp [Occupied, afterMove, hq]
  · by_cases hs : u = s
    · subst hs
      simp [Occupied, afterMove, h.man_src, ht]
    · simp [Occupied, afterMove, h.man_of_ne hs ht, ht, hs]

theorem Moves.enemies (h : p.Moves m pt s t) :
    (p.play m).men (~~~p.turn) = (p.men (~~~p.turn)).without t := by
  funext qt u
  apply propext
  by_cases ht : u = t
  · subst ht
    obtain ⟨rt, hr, -⟩ := h.man_dst
    simp [men, Men.without, hr]
  · by_cases hs : u = s
    · subst hs
      have := h.goes.man
      simp only [men] at this
      simp [men, Men.without, h.man_src, this]
    · simp [men, Men.without, h.man_of_ne hs ht, ht]

/-- The own men other than the mover stay. -/
theorem Moves.own (h : p.Moves m pt s t) {qt : PieceType} {u : Square} (hs : u ≠ s)
    (ht : u ≠ t) : (p.play m).men p.turn qt u ↔ p.men p.turn qt u := by
  rw [men, men, h.man_of_ne hs ht]

theorem Moves.king (h : p.Moves m pt s t) {k : Square} (hk : p.KingAt p.turn k) :
    (p.play m).KingAt p.turn (if pt = .king then t else k) := by
  intro u
  have hsk : pt = .king ↔ s = k := by
    rw [← hk s]
    exact ⟨fun e => e ▸ h.goes.man, fun e => men_unique h.goes.man e⟩
  obtain ⟨qt, hq, hqk⟩ := h.man_dst
  have htk : t ≠ k := fun e => h.goes.free .king ((hk t).mpr e)
  by_cases hut : u = t
  · subst hut
    rw [men, hq, Option.some.injEq, Piece.mk.injEq, hqk]
    split
    · simp_all
    · simp_all
  · by_cases hus : u = s
    · subst hus
      rw [men, h.man_src]
      split <;> simp_all
    · rw [h.own hus hut, hk u]
      split <;> simp_all

end Moves

section Drops

variable {pt : PieceType} {t : Square}

theorem occupied_drop (ht : p.man t = none) {u : Square} :
    (p.play (.drop pt t)).Occupied u ↔ afterDrop p.Occupied t u := by
  by_cases hu : u = t
  · subst hu
    simp [Occupied, afterDrop, play, Move.dst, arriving]
  · simp [Occupied, afterDrop, play, Move.dst, Move.src, hu]

theorem men_drop_other (ht : p.man t = none) {c : Color} (hc : c ≠ p.turn) :
    (p.play (.drop pt t)).men c = p.men c := by
  funext qt u
  apply propext
  by_cases hu : u = t
  · subst hu
    simp [men, play, Move.dst, arriving, ht, hc.symm]
  · simp [men, play, Move.dst, Move.src, hu]

theorem men_drop_own (ht : p.man t = none) {qt : PieceType} {u : Square} :
    (p.play (.drop pt t)).men p.turn qt u ↔ p.men p.turn qt u ∨ u = t ∧ qt = pt := by
  by_cases hu : u = t
  · subst hu
    simp [men, play, Move.dst, arriving, ht, eq_comm]
  · simp [men, play, Move.dst, Move.src, hu]

theorem king_drop (ht : p.man t = none) (hpt : pt.isHandPiece = true) {c : Color} {k : Square}
    (hk : p.KingAt c k) : (p.play (.drop pt t)).KingAt c k := by
  intro u
  by_cases hc : c = p.turn
  · subst hc
    rw [men_drop_own ht, hk u, or_iff_left]
    rintro ⟨-, rfl⟩
    cases hpt
  · rw [men_drop_other ht hc, hk u]

end Drops

/-! ## The safety of the king -/

theorem inCheck_iff {c : Color} {k : Square} (hk : p.KingAt c k) :
    p.InCheck c ↔ (p.men (~~~c)).Attacked (~~~c) p.Occupied k := by
  constructor
  · rintro ⟨k', hk', h⟩
    rwa [← (hk k').mp hk']
  · exact fun h => ⟨k, (hk k).mpr rfl, h⟩

/-- Checks depend on the men on the board only. -/
theorem inCheck_congr {q : Position} (h : p.man = q.man) {c : Color} :
    p.InCheck c ↔ q.InCheck c := by
  have hmen : p.men = q.men := by
    unfold men
    rw [h]
  have hocc : p.Occupied = q.Occupied := by
    unfold Occupied
    rw [h]
  rw [InCheck, InCheck, hmen, hocc]

/-- A king move is safe iff the destination is not attacked through the square it leaves. -/
theorem inCheck_play_king {m : Move} {k t : Square} (hk : p.KingAt p.turn k)
    (h : p.Moves m .king k t) : (p.play m).InCheck p.turn ↔
      (p.men (~~~p.turn)).Attacked (~~~p.turn) (fun u => p.Occupied u ∧ u ≠ k) t := by
  rw [inCheck_iff (h.king hk), if_pos rfl, h.enemies, Men.attacked_without,
    Men.attacked_congr fun u hu => h.occupied.trans (or_iff_right hu)]

theorem inCheck_play_move {m : Move} {pt : PieceType} {s t k : Square} (hk : p.KingAt p.turn k)
    (hpt : pt ≠ .king) (h : p.Moves m pt s t) : (p.play m).InCheck p.turn ↔
      ((p.men (~~~p.turn)).without t).Attacked (~~~p.turn) (afterMove p.Occupied s t) k := by
  have hocc : (p.play m).Occupied = afterMove p.Occupied s t :=
    funext fun u => propext h.occupied
  rw [inCheck_iff (h.king hk), if_neg hpt, h.enemies, hocc]

theorem inCheck_play_drop {pt : PieceType} {t k : Square} (hk : p.KingAt p.turn k)
    (ht : p.man t = none) (hpt : pt.isHandPiece = true) :
    (p.play (.drop pt t)).InCheck p.turn ↔
      (p.men (~~~p.turn)).Attacked (~~~p.turn) (afterDrop p.Occupied t) k := by
  have hocc : (p.play (.drop pt t)).Occupied = afterDrop p.Occupied t :=
    funext fun u => propext (occupied_drop ht)
  rw [inCheck_iff (king_drop ht hpt hk), men_drop_other ht (Color.compl_ne _), hocc]

/-- The men that attack the king on `k`. -/
abbrev Checker (p : Position) (c : Color) (k s : Square) : Prop :=
  (p.men (~~~c)).Checks (~~~c) p.Occupied k s

/-- The men that pin the man on `x` to the king on `k`. -/
abbrev Pinner (p : Position) (c : Color) (k x s : Square) : Prop :=
  (p.men (~~~c)).Pins (~~~c) p.Occupied k x s

theorem inCheck_iff_checker {c : Color} {k : Square} (hk : p.KingAt c k) :
    p.InCheck c ↔ ∃ s, p.Checker c k s := by
  rw [inCheck_iff hk, Men.attacked_iff_exists_checks]

/-- A man other than the king moves safely iff it meets every check and stays on its pin. -/
theorem safe_move_iff {m : Move} {pt : PieceType} {s t k : Square} (hk : p.KingAt p.turn k)
    (hpt : pt ≠ .king) (h : p.Moves m pt s t) : ¬ (p.play m).InCheck p.turn ↔
      (∀ x, p.Checker p.turn k x → Resolves k x t) ∧
        ((∃ x, p.Pinner p.turn k s x) → OnLine s k t) := by
  have htk : t ≠ k := fun e => h.goes.free .king ((hk t).mpr e)
  have hko : p.Occupied k := occupied_of_men ((hk k).mpr rfl)
  rw [inCheck_play_move hk hpt h, Men.not_attacked_move_iff,
    Men.pins_resolved_iff men_subset_occupied hko htk h.goes.attacks.2]

/-- A drop is safe iff it steps into every check. -/
theorem safe_drop_iff {pt : PieceType} {t k : Square} (hk : p.KingAt p.turn k)
    (ht : p.man t = none) (hpt : pt.isHandPiece = true) :
    ¬ (p.play (.drop pt t)).InCheck p.turn ↔ ∀ x, p.Checker p.turn k x → Between k t x := by
  rw [inCheck_play_drop hk ht hpt, Men.not_attacked_drop_iff]

/-- Against two checkers only the king can move. -/
theorem not_safe_of_two_checkers {m : Move} {k x y : Square} (hk : p.KingAt p.turn k)
    (hm : p.Allowed m) (hx : p.Checker p.turn k x) (hy : p.Checker p.turn k y) (hne : x ≠ y)
    (hsrc : m.src ≠ some k) : (p.play m).InCheck p.turn := by
  by_contra hsafe
  rcases hm.cases with ⟨pt, s, t, h⟩ | ⟨pt, t, rfl, ht, hpt⟩
  · have hnk : pt ≠ .king := by
      rintro rfl
      exact hsrc (h.src.trans (congrArg some ((hk s).mp h.goes.man)))
    obtain ⟨hres, -⟩ := (safe_move_iff hk hnk h).mp hsafe
    exact hne (Men.eq_of_resolves men_subset_occupied hx hy (hres x hx) (hres y hy))
  · have hres := (safe_drop_iff hk ht hpt).mp hsafe
    exact hne (Men.eq_of_resolves men_subset_occupied hx hy (Or.inr (hres x hx))
      (Or.inr (hres y hy)))

/-- The safety of a board move does not depend on promotion. -/
theorem inCheck_play_congr {m m' : Move} {pt : PieceType} {s t k : Square}
    (hk : p.KingAt p.turn k) (h : p.Moves m pt s t) (h' : p.Moves m' pt s t) :
    (p.play m).InCheck p.turn ↔ (p.play m').InCheck p.turn := by
  by_cases hpt : pt = .king
  · subst hpt
    cases (hk s).mp h.goes.man
    rw [inCheck_play_king hk h, inCheck_play_king hk h']
  · rw [inCheck_play_move hk hpt h, inCheck_play_move hk hpt h']

/-! ## Pawn drops that check -/

/-- A drop checks a king that was not in check exactly when the dropped man attacks it. -/
theorem inCheck_drop_enemy {pt : PieceType} {t k : Square} (hk : p.KingAt (~~~p.turn) k)
    (ht : p.man t = none) (hpt : pt.isHandPiece = true) (hsafe : ¬ p.InCheck (~~~p.turn)) :
    (p.play (.drop pt t)).InCheck (~~~p.turn) ↔ Attacks pt p.turn p.Occupied t k := by
  have hocc : (p.play (.drop pt t)).Occupied = afterDrop p.Occupied t :=
    funext fun u => propext (occupied_drop ht)
  have hback : ∀ {s}, Clear (afterDrop p.Occupied t) s k → Clear p.Occupied s k :=
    fun h => h.mono fun u _ ho => Or.inr ho
  rw [inCheck_iff hk, Color.compl_compl] at hsafe
  rw [inCheck_iff (king_drop ht hpt hk), Color.compl_compl, hocc]
  constructor
  · rintro ⟨qt, s, hm, hr, hc⟩
    rcases (men_drop_own ht).mp hm with hm | ⟨rfl, rfl⟩
    · exact absurd ⟨qt, s, hm, hr, hback hc⟩ hsafe
    · exact ⟨hr, hback hc⟩
  · rintro ⟨hr, hc⟩
    refine ⟨pt, t, (men_drop_own ht).mpr (Or.inr ⟨rfl, rfl⟩), hr, fun u hu ho => ?_⟩
    exact ho.elim hu.ne_left (hc u hu)

theorem attacks_pawn_iff {c : Color} {occ : Square → Prop} {s t : Square} :
    Attacks .pawn c occ s t ↔ Reach .pawn c s t := by
  refine and_iff_left_of_imp fun h u hu => ?_
  have hb := between_iff.mp hu
  rw [reach_iff] at h
  cases c <;> simp only at h <;> omega

/-- The legal moves in the usual words, where the enemy king is not in check: an allowed move
that leaves no own king attacked and is not a pawn drop that mates. -/
theorem legal_iff {m : Move} {k : Square} (hk : p.KingAt (~~~p.turn) k)
    (hsafe : ¬ p.InCheck (~~~p.turn)) : p.Legal m ↔ p.Allowed m ∧
      ¬ (p.play m).InCheck p.turn ∧ ¬ ((∃ t, m = .drop .pawn t) ∧ (p.play m).Checkmate) := by
  rw [legal_iff_answer]
  refine and_congr_right fun ha => and_congr_right fun _ => ?_
  have hdrop : ∀ t, m = .drop .pawn t → ((p.play m).InCheck (~~~p.turn) ↔ p.DropsPawnOnKing m) := by
    rintro t rfl
    cases ha with
    | drop able held empty stay single =>
      rw [inCheck_drop_enemy hk empty able hsafe, attacks_pawn_iff]
      constructor
      · exact fun h => ⟨t, k, rfl, (hk k).mpr rfl, h⟩
      · rintro ⟨t', k', he, hk', hr⟩
        cases he
        rwa [← (hk k').mp hk']
  constructor
  · rintro h ⟨⟨t, ht⟩, hmate⟩
    obtain ⟨m', hm'⟩ := h ((hdrop t ht).mp hmate.1)
    exact hmate.2 m' hm'
  · intro h hd
    obtain ⟨t, -, ht, -⟩ := id hd
    by_contra hno
    exact h ⟨⟨t, ht⟩, (hdrop t ht).mpr hd, fun m' hm' => hno ⟨m', hm'⟩⟩

/-- After a legal move the side that moved is not in check. -/
theorem Legal.not_inCheck {m : Move} (h : p.Legal m) : ¬ (p.play m).InCheck p.turn :=
  (legal_iff_answer.mp h).2.1

theorem Legal.allowed {m : Move} (h : p.Legal m) : p.Allowed m := (legal_iff_answer.mp h).1

end Position

end Shogi
