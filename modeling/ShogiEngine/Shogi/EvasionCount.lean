import ShogiEngine.Shogi.Evasions

/-!
# The number of evasions

A side in check has few legal moves: its king has eight squares to go to, and its other men must come to one
of at most eight squares that meet the check.

## Main definitions

- `comings`: the directions from which the men of a side come to a square
- `kingSteps`: the number of king steps between two squares

## Main results

- `eq_of_comesFrom`: from one direction at most one man comes to a square
- `length_generateLegalMoves_le`: a side in check has at most 217 legal moves
-/

namespace Shogi

/-! ## Directions and distances -/

/-- The jumps of a knight, seen from the square where it lands. -/
def jumps (c : Color) : List (Int × Int) := [(-1, -2 * c.forward), (1, -2 * c.forward)]

/-- The directions from which the men of a side come. -/
def comings (c : Color) : List (Int × Int) := dirs ++ jumps c

theorem card_comings (c : Color) : (comings c).toFinset.card = 10 := by
  cases c <;> decide

/-- The number of king steps between two squares. -/
def kingSteps (s t : Square) : Nat := max ((t.file : Int) - s.file).natAbs ((t.rank : Int) - s.rank).natAbs

/-- A man on `s` comes to `t` from the direction `d`. -/
def ComesFrom (c : Color) (d : Int × Int) (s t : Square) : Prop :=
  (d ∈ dirs ∧ ∃ n, 1 ≤ n ∧ StepsAway d n t s) ∨ d ∈ jumps c ∧ IsStep d.1 d.2 t s

section Directions

variable {pt qt : PieceType} {c : Color} {occ : Square → Prop} {d : Int × Int} {k s s' t t' x : Square}

theorem dirs_jumps_disjoint (hd : d ∈ dirs) : d ∉ jumps c := by
  obtain ⟨-, h, -⟩ := abs_le_of_mem_dirs hd
  rintro hj
  simp only [jumps, List.mem_cons, List.not_mem_nil, or_false] at hj
  cases c <;> rcases hj with rfl | rfl <;> simp only [Color.forward] at h <;> omega

/-- A man jumps like a knight, or goes along a line. -/
theorem Reach.jump_or_line (h : Reach pt c s t) : (∃ d ∈ jumps c, IsStep d.1 d.2 t s) ∨ OnLine t s s := by
  rw [reach_iff] at h
  rw [onLine_iff, Square.ne_iff_coord]
  simp only [jumps, List.mem_cons, List.not_mem_nil, or_false, exists_eq_or_imp, exists_eq_left, IsStep, and_true]
  cases pt <;> cases c <;> simp only [Color.forward] at h ⊢ <;> omega

/-- Every man comes from one of the directions. -/
theorem exists_comesFrom (h : Reach pt c s t) : ∃ d ∈ comings c, ComesFrom c d s t := by
  obtain ⟨d, hd, hstep⟩ | hline := h.jump_or_line
  · exact ⟨d, List.mem_append_right _ hd, Or.inr ⟨hd, hstep⟩⟩
  · obtain ⟨d, hd, n, hn, hsteps⟩ := exists_stepsAway_of_onLine hline
    exact ⟨d, List.mem_append_left _ hd, Or.inl ⟨hd, n, hn, hsteps⟩⟩

theorem eq_of_isStep {df dr : Int} (h : IsStep df dr t s) (h' : IsStep df dr t s') : s = s' := by
  obtain ⟨h1, h2⟩ := h
  obtain ⟨h3, h4⟩ := h'
  exact Square.ext_coord (by omega) (by omega)

/-- From one direction at most one man comes to a square: the nearer one of two would stand in the way. -/
theorem eq_of_comesFrom (hs : occ s) (hs' : occ s') (hclear : Clear occ t s) (hclear' : Clear occ t s')
    (h : ComesFrom c d s t) (h' : ComesFrom c d s' t) : s = s' := by
  obtain ⟨hd, n, hn, hsteps⟩ | ⟨hd, hstep⟩ := h
  · obtain ⟨-, n', hn', hsteps'⟩ | ⟨hd', -⟩ := h'
    · rcases Nat.lt_trichotomy n n' with hlt | rfl | hlt
      · exact absurd hs (hclear' s ((stepsAway_lt_iff_between hd hn' hsteps').mp ⟨n, hn, hlt, hsteps⟩))
      · exact eq_of_isStep hsteps hsteps'
      · exact absurd hs' (hclear s' ((stepsAway_lt_iff_between hd hn hsteps).mp ⟨n', hn', hlt, hsteps'⟩))
    · exact absurd hd' (dirs_jumps_disjoint hd)
  · obtain ⟨hd', -⟩ | ⟨-, hstep'⟩ := h'
    · exact absurd hd (dirs_jumps_disjoint hd')
    · exact eq_of_isStep hstep hstep'

theorem kingSteps_le : kingSteps s t ≤ 8 := by
  have := s.file_lt
  have := s.rank_lt
  have := t.file_lt
  have := t.rank_lt
  rw [kingSteps]
  omega

theorem kingSteps_pos (h : s ≠ t) : 1 ≤ kingSteps s t := by
  rw [Square.ne_iff_coord] at h
  rw [kingSteps]
  omega

/-- What lies between is nearer. -/
theorem kingSteps_lt_of_between (h : Between k t x) : kingSteps k t < kingSteps k x := by
  rw [between_iff] at h
  rw [kingSteps, kingSteps]
  omega

/-- Squares between `k` and `x` are told apart by their distance from `k`. -/
theorem eq_of_between (h : Between k t x) (h' : Between k t' x) (heq : kingSteps k t = kingSteps k t') : t = t' := by
  rw [between_iff] at h h'
  rw [kingSteps, kingSteps] at heq
  exact Square.ext_coord (by omega) (by omega)

theorem eq_of_resolves_of_kingSteps (h : Resolves k x t) (h' : Resolves k x t')
    (heq : kingSteps k t = kingSteps k t') : t = t' := by
  rcases h with rfl | h
  · rcases h' with rfl | h'
    · rfl
    · exact absurd (kingSteps_lt_of_between h') (by omega)
  · rcases h' with rfl | h'
    · exact absurd (kingSteps_lt_of_between h) (by omega)
    · exact eq_of_between h h' heq

end Directions

/-! ## Counting -/

/-- Different elements of a list have different codes in a finite set. -/
theorem length_le_of_code {α κ : Type*} [DecidableEq κ] {l : List α} (hl : l.Nodup) {S : Finset κ} (code : α → κ)
    (hmem : ∀ m ∈ l, code m ∈ S) (hinj : ∀ m ∈ l, ∀ m' ∈ l, code m = code m' → m = m') : l.length ≤ S.card := by
  have hnodup : (l.map code).Nodup := hl.map_on hinj
  rw [← List.length_map code, ← List.toFinset_card_of_nodup hnodup]
  refine Finset.card_le_card fun y hy => ?_
  obtain ⟨m, hm, rfl⟩ := List.mem_map.mp (List.mem_toFinset.mp hy)
  exact hmem m hm

/-- `drop_piece`. -/
def Move.dropPiece : Move → Option PieceType
  | drop pt _ => some pt
  | _ => none

/-- The men that can be dropped. -/
def dropPieces : Finset (Option PieceType) :=
  {some .pawn, some .lance, some .knight, some .silver, some .gold, some .bishop, some .rook}

/-- A board move is told by its squares and its promotion. -/
theorem Move.eq_of_isPromotion {m m' : Move} {s : Square} (hs : m.src = some s) (hs' : m'.src = some s)
    (hdst : m.dst = m'.dst) (hpromotion : m.isPromotion = m'.isPromotion) : m = m' := by
  cases m <;> cases m' <;> cases hs <;> cases hs' <;> cases hdst <;> first | rfl | cases hpromotion

namespace Position

section Count

variable {p : Position} {c : Color} {k x : Square} {l : List Move}

/-- The legal moves, pawn drops that mate included. -/
def Safe (p : Position) (m : Move) : Prop := p.Allowed m ∧ ¬(p.play m).InCheck p.turn

/-- The king has eight squares to go to. -/
theorem length_kingMoves_le (hk : p.KingAt p.turn k) (hl : l.Nodup) (hsafe : ∀ m ∈ l, p.Safe m)
    (hsrc : ∀ m ∈ l, m.src = some k) : l.length ≤ 8 := by
  have hnormal : ∀ m ∈ l, ∃ t, m = .normal k t ∧ Reach .king p.turn k t := by
    intro m hm
    obtain ⟨pt, h⟩ := (hsafe m hm).1.moves (hsrc m hm)
    have hking : pt = .king := men_unique h.goes.man ((hk k).mpr rfl)
    subst hking
    have hallowed := (hsafe m hm).1
    cases m with
    | normal s t =>
      cases h.src
      exact ⟨t, rfl, h.goes.attacks.1⟩
    | promotion s t =>
      cases h.src
      cases hallowed with
      | promotion goes able _ =>
        cases men_unique goes.man ((hk _).mpr rfl)
        cases able
    | drop qt t => cases h.src
  refine (length_le_of_code hl (S := dirs.toFinset)
    (fun m => ((m.dst.file : Int) - k.file, (m.dst.rank : Int) - k.rank)) ?_ ?_).trans (by decide)
  · intro m hm
    obtain ⟨t, rfl, hreach⟩ := hnormal m hm
    rw [reach_iff] at hreach
    simp only at hreach
    simp only [Move.dst, dirs, List.mem_toFinset, List.mem_cons, List.not_mem_nil, or_false, Prod.mk.injEq]
    omega
  · intro m hm m' hm' heq
    obtain ⟨t, rfl, -⟩ := hnormal m hm
    obtain ⟨t', rfl, -⟩ := hnormal m' hm'
    simp only [Move.dst, Prod.mk.injEq] at heq
    rw [Square.ext_coord (s := t) (t := t') (by omega) (by omega)]

/-- A drop steps into the check on one of at most seven squares. -/
theorem length_drops_le (hk : p.KingAt p.turn k) (hx : p.Checker p.turn k x) (hl : l.Nodup)
    (hsafe : ∀ m ∈ l, p.Safe m) (hdrop : ∀ m ∈ l, m.src = none) : l.length ≤ 49 := by
  have hbetween : ∀ m ∈ l, ∃ pt t, m = .drop pt t ∧ pt.isHandPiece = true ∧ Between k t x := by
    intro m hm
    obtain ⟨hallowed, hno⟩ := hsafe m hm
    cases hallowed with
    | normal _ _ => exact absurd (hdrop _ hm) (Option.some_ne_none _)
    | promotion _ _ _ => exact absurd (hdrop _ hm) (Option.some_ne_none _)
    | @drop pt t able _ empty _ _ => exact ⟨pt, t, rfl, able, (safe_drop_iff hk empty able).mp hno x hx⟩
  refine (length_le_of_code hl (S := dropPieces ×ˢ Finset.Icc 1 7)
    (fun m => (m.dropPiece, kingSteps k m.dst)) ?_ ?_).trans (by decide)
  · intro m hm
    obtain ⟨pt, t, rfl, hpt, hb⟩ := hbetween m hm
    have hpos := kingSteps_pos hb.ne_left.symm
    have hlt := kingSteps_lt_of_between hb
    have hle : kingSteps k x ≤ 8 := kingSteps_le
    refine Finset.mem_product.mpr ⟨?_, Finset.mem_Icc.mpr ⟨hpos, ?_⟩⟩
    · change some pt ∈ dropPieces
      cases pt <;> first | decide | cases hpt
    · exact Nat.le_of_lt_succ (hlt.trans_le hle)
  · intro m hm m' hm' heq
    obtain ⟨pt, t, rfl, -, hb⟩ := hbetween m hm
    obtain ⟨pt', t', rfl, -, hb'⟩ := hbetween m' hm'
    obtain ⟨hpt, hsteps⟩ := Prod.mk.inj heq
    cases hpt
    rw [eq_of_between hb hb' hsteps]

/-- The other men come to one of at most eight squares, from one of ten directions. -/
theorem length_boardMoves_le (hk : p.KingAt p.turn k) (hx : p.Checker p.turn k x) (hl : l.Nodup)
    (hsafe : ∀ m ∈ l, p.Safe m) (hsrc : ∀ m ∈ l, m.src ≠ some k) (hboard : ∀ m ∈ l, m.src ≠ none) :
    l.length ≤ 160 := by
  have hmoves : ∀ m ∈ l, ∃ pt s t, p.Moves m pt s t ∧ Resolves k x t ∧ t ≠ k := by
    intro m hm
    obtain ⟨hallowed, hno⟩ := hsafe m hm
    obtain ⟨s, hs⟩ := Option.ne_none_iff_exists'.mp (hboard m hm)
    obtain ⟨pt, h⟩ := hallowed.moves hs
    have hnk : pt ≠ .king := by
      rintro rfl
      exact hsrc m hm (hs.trans (congrArg some ((hk s).mp h.goes.man)))
    exact ⟨pt, s, m.dst, h, ((safe_move_iff hk hnk h).mp hno).1 x hx,
      fun e => h.goes.free .king ((hk _).mpr e)⟩
  have hdirection : ∀ m ∈ l, ∃ d, d ∈ comings p.turn ∧ ∀ s, m.src = some s → ComesFrom p.turn d s m.dst := by
    intro m hm
    obtain ⟨pt, s, t, h, -, -⟩ := hmoves m hm
    obtain ⟨d, hd, hcomes⟩ := exists_comesFrom h.goes.attacks.1
    refine ⟨d, hd, fun s' hs' => ?_⟩
    cases h.src.symm.trans hs'
    rw [h.dst]
    exact hcomes
  choose! direction hdir hcomes using hdirection
  have hpos : ∀ m ∈ l, 1 ≤ kingSteps k m.dst := by
    intro m hm
    obtain ⟨pt, s, t, h, -, htk⟩ := hmoves m hm
    rw [h.dst]
    exact kingSteps_pos htk.symm
  have hinj : ∀ m ∈ l, ∀ m' ∈ l, (kingSteps k m.dst, direction m, m.isPromotion) =
      (kingSteps k m'.dst, direction m', m'.isPromotion) → m = m' := by
    intro m hm m' hm' heq
    obtain ⟨pt, s, t, h, hres, -⟩ := hmoves m hm
    obtain ⟨pt', s', t', h', hres', -⟩ := hmoves m' hm'
    simp only [Prod.mk.injEq] at heq
    obtain ⟨hsteps, hd, hpromotion⟩ := heq
    have hcm := hcomes m hm s h.src
    have hcm' := hcomes m' hm' s' h'.src
    rw [h.dst, h'.dst] at hsteps
    obtain rfl := eq_of_resolves_of_kingSteps hres hres' hsteps
    rw [h.dst, hd] at hcm
    rw [h'.dst] at hcm'
    obtain rfl : s = s' := eq_of_comesFrom (occupied_of_men h.goes.man) (occupied_of_men h'.goes.man)
      h.goes.attacks.2.symm h'.goes.attacks.2.symm hcm hcm'
    exact Move.eq_of_isPromotion h.src h'.src (h.dst.trans h'.dst.symm) hpromotion
  have hcard : (Finset.Icc 1 8 ×ˢ (comings p.turn).toFinset ×ˢ (Finset.univ : Finset Bool)).card = 160 := by
    rw [Finset.card_product, Finset.card_product, Nat.card_Icc, Finset.card_univ, Fintype.card_bool,
      card_comings]
  rw [← hcard]
  refine length_le_of_code hl (fun m => (kingSteps k m.dst, direction m, m.isPromotion)) (fun m hm => ?_) hinj
  simp only [Finset.mem_product, Finset.mem_Icc, List.mem_toFinset, Finset.mem_univ, and_true]
  exact ⟨⟨hpos m hm, kingSteps_le⟩, hdir m hm⟩

/-- A side in check has at most 217 moves. -/
theorem length_le_of_inCheck (hk : p.KingAt p.turn k) (hcheck : p.InCheck p.turn) (hl : l.Nodup)
    (hsafe : ∀ m ∈ l, p.Safe m) : l.length ≤ 217 := by
  obtain ⟨x, hx⟩ := (inCheck_iff_checker hk).mp hcheck
  rw [List.length_eq_length_filter_add (fun m => decide (m.src = some k))]
  have hrest := List.length_eq_length_filter_add (l := l.filter fun m => !decide (m.src = some k))
    (fun m => decide (m.src = none))
  have hking : (l.filter fun m => decide (m.src = some k)).length ≤ 8 := by
    refine length_kingMoves_le hk (hl.filter _) (fun m hm => hsafe m (List.mem_of_mem_filter hm)) fun m hm => ?_
    exact of_decide_eq_true (List.mem_filter.mp hm).2
  have hdrops : ((l.filter fun m => !decide (m.src = some k)).filter fun m => decide (m.src = none)).length ≤ 49 := by
    refine length_drops_le hk hx ((hl.filter _).filter _) (fun m hm => ?_) fun m hm => ?_
    · exact hsafe m (List.mem_of_mem_filter (List.mem_of_mem_filter hm))
    · exact of_decide_eq_true (List.mem_filter.mp hm).2
  have hboard : ((l.filter fun m => !decide (m.src = some k)).filter fun m => !decide (m.src = none)).length ≤ 160 := by
    refine length_boardMoves_le hk hx ((hl.filter _).filter _) (fun m hm => ?_) (fun m hm => ?_) fun m hm => ?_
    · exact hsafe m (List.mem_of_mem_filter (List.mem_of_mem_filter hm))
    · simpa using (List.mem_filter.mp (List.mem_of_mem_filter hm)).2
    · simpa using (List.mem_filter.mp hm).2
  omega

end Count

end Position

namespace ShogiBoard

variable {b : ShogiBoard}

/-- A side in check has at most 217 legal moves. -/
theorem length_generateLegalMoves_le (hb : b.Consistent) (hk : b.HasKings)
    (hcheck : b.inCheck b.sideToMove = true) : b.generateLegalMoves.length ≤ 217 := by
  refine Position.length_le_of_inCheck (hb.kingAt hk b.sideToMove) ((hb.inCheck_iff hk).mp hcheck)
    nodup_generateLegalMoves fun m hm => ?_
  have hlegal := (mem_generateLegalMoves hb hk).mp hm
  exact ⟨hlegal.allowed, hlegal.not_inCheck⟩

end ShogiBoard

end Shogi
