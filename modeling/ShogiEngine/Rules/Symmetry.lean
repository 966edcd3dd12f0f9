import ShogiEngine.Rules.Position

/-!
# Colour symmetry of the rules

The half turn of the board with the colours exchanged. Each notion of the rules is carried to its
image, from the single steps of the men up to the legal moves.

## Main definitions

- `Position.flip`: the half turn of a position

## Main results

- `Position.inCheck_flip`, `Position.legal_flip_iff`: checks and legal moves of the image
-/

namespace Shogi

/-! ## Squares and lines -/

theorem Square.exists_flipped {P : Square → Prop} : (∃ s, P s) ↔ ∃ s, P (Square.flipped s) := by
  constructor
  · intro h
    obtain ⟨s, hs⟩ := h
    exact ⟨s.flipped, by rwa [Square.flipped_flipped]⟩
  · exact fun h => ⟨_, h.choose_spec⟩

theorem Square.forall_flipped {P : Square → Prop} : (∀ s, P s) ↔ ∀ s, P (Square.flipped s) := by
  constructor
  · exact fun h s => h _
  · intro h s
    have hs := h s.flipped
    rwa [Square.flipped_flipped] at hs

theorem LineKind.inv_flipped {k : LineKind} {s t : Square} :
    k.inv s.flipped = k.inv t.flipped ↔ k.inv s = k.inv t := by
  have h1 := s.file_lt
  have h2 := s.rank_lt
  have h3 := t.file_lt
  have h4 := t.rank_lt
  cases k <;> simp only [LineKind.inv, Square.file_flipped, Square.rank_flipped] <;> omega

theorem LineKind.pos_flipped {k : LineKind} {s t : Square} :
    k.pos s.flipped < k.pos t.flipped ↔ k.pos t < k.pos s := by
  have h1 := s.file_lt
  have h2 := s.rank_lt
  have h3 := t.file_lt
  have h4 := t.rank_lt
  cases k <;> simp only [LineKind.pos, Square.file_flipped, Square.rank_flipped] <;> omega

/-- The half turn keeps the lines of each kind and reverses their order. -/
theorem between_flipped {s u t : Square} :
    Between s.flipped u.flipped t.flipped ↔ Between s u t :=
  LineSystem.between_map (fun _ _ _ => LineKind.inv_flipped) fun _ _ _ => LineKind.pos_flipped

theorem aligned_flipped {k : LineKind} {s t : Square} :
    Aligned k s.flipped t.flipped ↔ Aligned k s t :=
  and_congr (not_congr Square.flipped_inj) LineKind.inv_flipped

theorem Color.forward_compl (c : Color) : (~~~c).forward = -c.forward := by
  cases c <;> rfl

theorem isStep_flipped {df dr : Int} {s t : Square} :
    IsStep df dr s.flipped t.flipped ↔ IsStep (-df) (-dr) s t := by
  have h1 := s.file_lt
  have h2 := s.rank_lt
  have h3 := t.file_lt
  have h4 := t.rank_lt
  simp only [IsStep, Square.file_flipped, Square.rank_flipped]
  omega

/-- The steps of every man are symmetric from left to right. -/
theorem mem_steps_mirror : ∀ pt : PieceType, ∀ d ∈ pt.steps, (-d.1, d.2) ∈ pt.steps := by
  decide

theorem slidesTo_flipped {pt : PieceType} {c : Color} {s t : Square} :
    pt.SlidesTo (~~~c) s.flipped t.flipped ↔ pt.SlidesTo c s t := by
  cases pt with
  | lance =>
    have h1 := s.file_lt
    have h2 := s.rank_lt
    have h3 := t.file_lt
    have h4 := t.rank_lt
    simp only [PieceType.SlidesTo, Square.file_flipped, Square.rank_flipped, Color.forward_compl]
    cases c <;> simp only [Color.forward] <;> omega
  | bishop | horse | rook | dragon => exact or_congr aligned_flipped aligned_flipped
  | _ => exact Iff.rfl

theorem reach_flipped {pt : PieceType} {c : Color} {s t : Square} :
    Reach pt (~~~c) s.flipped t.flipped ↔ Reach pt c s t := by
  refine or_congr ⟨fun h => ?_, fun h => ?_⟩ slidesTo_flipped
  · obtain ⟨d, hd, h⟩ := h
    refine ⟨(-d.1, d.2), mem_steps_mirror pt d hd, ?_⟩
    rwa [isStep_flipped, Color.forward_compl, Int.mul_neg, Int.neg_neg] at h
  · obtain ⟨d, hd, h⟩ := h
    refine ⟨(-d.1, d.2), mem_steps_mirror pt d hd, ?_⟩
    rwa [isStep_flipped, Color.forward_compl, Int.mul_neg, Int.neg_neg, Int.neg_neg]

theorem clear_flipped {occ : Square → Prop} {s t : Square} :
    Clear (fun u => occ u.flipped) s.flipped t.flipped ↔ Clear occ s t := by
  rw [Clear, LineSystem.Clear, Square.forall_flipped]
  refine forall_congr' fun u => imp_congr between_flipped ?_
  rw [Square.flipped_flipped]

theorem attacks_flipped {pt : PieceType} {c : Color} {occ : Square → Prop} {s t : Square} :
    Attacks pt (~~~c) (fun u => occ u.flipped) s.flipped t.flipped ↔ Attacks pt c occ s t :=
  and_congr reach_flipped clear_flipped

theorem canLeave_flipped {pt : PieceType} {c : Color} {t : Square} :
    CanLeave pt (~~~c) t.flipped ↔ CanLeave pt c t :=
  Square.exists_flipped.trans (exists_congr fun _ => reach_flipped)

theorem inPromotionZone_flipped {c : Color} {s : Square} :
    s.flipped.inPromotionZone (~~~c) = s.inPromotionZone c := by
  have hs := s.rank_lt
  cases c <;> simp only [Color.compl_black, Color.compl_white, Square.inPromotionZone,
    Square.rank_flipped, decide_eq_decide] <;> omega

/-! ## Positions -/

/-- The same man of the other side. -/
def Piece.flip (q : Piece) : Piece := ⟨~~~q.color, q.type⟩

@[simp] theorem Piece.flip_flip (q : Piece) : q.flip.flip = q := by
  simp [Piece.flip]

theorem Move.dst_flip (m : Move) : m.flip.dst = m.dst.flipped := by
  cases m <;> rfl

theorem Move.src_flip (m : Move) : m.flip.src = m.src.map Square.flipped := by
  cases m <;> rfl

namespace Position

/-- The half turn of a position, with the colours of the men, the hands and the turn exchanged. -/
def flip (p : Position) : Position where
  man s := (p.man s.flipped).map Piece.flip
  hand c pt := p.hand (~~~c) pt
  turn := ~~~p.turn

variable {p : Position} {m : Move} {c : Color} {pt : PieceType} {s t : Square}

theorem flip_flip (p : Position) : p.flip.flip = p := by
  apply Position.ext
  · funext s
    simp [flip, Function.comp_def]
  · funext c pt
    simp [flip]
  · simp [flip]

theorem men_flip : p.flip.men (~~~c) pt s.flipped ↔ p.men c pt s := by
  simp only [men, flip, Square.flipped_flipped, Option.map_eq_some_iff]
  constructor
  · intro h
    obtain ⟨q, hq, he⟩ := h
    have hflip := congrArg Piece.flip he
    rw [Piece.flip_flip] at hflip
    rw [hq, hflip]
    simp [Piece.flip]
  · exact fun h => ⟨_, h, rfl⟩

theorem man_flip_eq_none : p.flip.man s.flipped = none ↔ p.man s = none := by
  simp only [flip, Square.flipped_flipped, Option.map_eq_none_iff]

theorem occupied_flip : p.flip.Occupied = fun u => p.Occupied u.flipped := by
  funext u
  simp only [Occupied, flip, ne_eq, Option.map_eq_none_iff]

theorem attacks_flip : Attacks pt (~~~c) p.flip.Occupied s.flipped t.flipped ↔
    Attacks pt c p.Occupied s t := by
  rw [occupied_flip]
  exact attacks_flipped

theorem attacked_flip : (p.flip.men (~~~c)).Attacked (~~~c) p.flip.Occupied t.flipped ↔
    (p.men c).Attacked c p.Occupied t :=
  exists_congr fun _ => Square.exists_flipped.trans
    (exists_congr fun _ => and_congr men_flip attacks_flip)

/-- A side is in check iff the other side is in the image. -/
theorem inCheck_flip : p.flip.InCheck (~~~c) ↔ p.InCheck c :=
  Square.exists_flipped.trans (exists_congr fun _ => and_congr men_flip attacked_flip)

theorem Goes.flip (h : p.Goes pt s t) : p.flip.Goes pt s.flipped t.flipped :=
  ⟨men_flip.mpr h.man, attacks_flip.mpr h.attacks, fun qt hq => h.free qt (men_flip.mp hq)⟩

theorem Allowed.flip (h : p.Allowed m) : p.flip.Allowed m.flip := by
  cases h with
  | normal goes stay => exact .normal goes.flip (canLeave_flipped.mpr stay)
  | promotion goes able zone =>
    refine .promotion goes.flip able ?_
    rwa [show p.flip.turn = ~~~p.turn from rfl, inPromotionZone_flipped, inPromotionZone_flipped]
  | @drop pt t able held empty stay single =>
    refine .drop able ?_ (man_flip_eq_none.mpr empty) (canLeave_flipped.mpr stay) fun hpt => ?_
    · rwa [show p.flip.hand p.flip.turn pt = p.hand (~~~(~~~p.turn)) pt from rfl,
        Color.compl_compl]
    · rw [Square.forall_flipped]
      intro s hs hfile
      refine single hpt s (men_flip.mp hs) ?_
      have h1 := s.file_lt
      have h2 := t.file_lt
      rw [Square.file_flipped, Square.file_flipped] at hfile
      omega

theorem arriving_flip : p.flip.arriving m.flip = (p.arriving m).map Piece.flip := by
  cases m with
  | normal s t => simp only [Move.flip, arriving, flip, Square.flipped_flipped]
  | promotion s t =>
    simp only [Move.flip, arriving, flip, Square.flipped_flipped, Option.map_map]
    rfl
  | drop pt t => rfl

theorem handAfter_flip : p.flip.handAfter m.flip pt = p.handAfter m pt := by
  have hhand : ∀ pt, p.flip.hand p.flip.turn pt = p.hand p.turn pt := fun pt => by
    rw [show p.flip.hand p.flip.turn pt = p.hand (~~~(~~~p.turn)) pt from rfl, Color.compl_compl]
  cases m with
  | drop qt t => simp only [Move.flip, handAfter, hhand]
  | _ s t =>
    simp only [Move.flip, handAfter, hhand]
    simp only [flip, Square.flipped_flipped]
    cases p.man t <;> rfl

/-- Playing the image of a move gives the image of the position after it. -/
theorem play_flip : p.flip.play m.flip = (p.play m).flip := by
  apply Position.ext
  · funext u
    have hsrc : m.flip.src = some u ↔ m.src = some u.flipped := by
      rw [Move.src_flip, Option.map_eq_some_iff]
      constructor
      · intro h
        obtain ⟨s, hs, he⟩ := h
        rw [hs, Square.flipped_eq_iff.mp he]
      · exact fun h => ⟨_, h, Square.flipped_flipped u⟩
    have hdst : u = m.flip.dst ↔ u.flipped = m.dst := by
      rw [Move.dst_flip]
      exact Square.flipped_eq_iff.symm
    change (if u = m.flip.dst then p.flip.arriving m.flip else if m.flip.src = some u then none
      else p.flip.man u) = ((p.play m).man u.flipped).map Piece.flip
    by_cases h1 : u.flipped = m.dst
    · rw [if_pos (hdst.mpr h1), arriving_flip, h1, man_play_dst]
    · rw [if_neg (mt hdst.mp h1)]
      by_cases h2 : m.src = some u.flipped
      · rw [if_pos (hsrc.mpr h2)]
        simp [play, h1, h2]
      · rw [if_neg (mt hsrc.mp h2), man_play_of_ne h1 h2]
        rfl
  · funext c qt
    have hturn : c = p.flip.turn ↔ ~~~c = p.turn := by
      rw [show p.flip.turn = ~~~p.turn from rfl, ← Color.compl_inj, Color.compl_compl]
    change (if c = p.flip.turn then p.flip.handAfter m.flip qt else p.flip.hand c qt) =
      if ~~~c = p.turn then p.handAfter m qt else p.hand (~~~c) qt
    simp only [hturn, handAfter_flip]
    rfl
  · rfl

theorem dropsPawnOnKing_flip : p.flip.DropsPawnOnKing m.flip ↔ p.DropsPawnOnKing m := by
  have hdrop : ∀ t, m.flip = .drop .pawn t.flipped ↔ m = .drop .pawn t := by
    intro t
    cases m <;> simp [Move.flip, Square.flipped_inj]
  have hturn : p.flip.turn = ~~~p.turn := rfl
  refine Square.exists_flipped.trans (exists_congr fun t =>
    Square.exists_flipped.trans (exists_congr fun k => ?_))
  rw [hdrop, hturn, men_flip, reach_flipped]

theorem Legal.flip (h : p.Legal m) : p.flip.Legal m.flip := by
  induction h with
  | @intro p m allowed safe answer _ ih =>
    refine .intro allowed.flip ?_ answer.flip fun hd => ?_
    · rw [play_flip, show p.flip.turn = ~~~p.turn from rfl, inCheck_flip]
      exact safe
    · rw [play_flip]
      exact ih (dropsPawnOnKing_flip.mp hd)

/-- The legal moves of the image are the images of the legal moves. -/
theorem legal_flip_iff : p.flip.Legal m.flip ↔ p.Legal m := by
  refine ⟨fun h => ?_, Legal.flip⟩
  have hflip := h.flip
  rwa [flip_flip, Move.flip_flip] at hflip

end Position

end Shogi
