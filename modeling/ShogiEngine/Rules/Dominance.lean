import ShogiEngine.Library.AttackGame
import ShogiEngine.Rules.Position

/-!
# Hand dominance

Two positions with the same men on the board and the same side to move, in which the attacker holds at
least as much in one as in the other and the defender at most as much. The attacker can then mate in
one if he can in the other.

## Main definitions

- `Position.Favours`: the second position is at least as good for a colour
- `Position.mateGame`: one side checks with every move, the other answers with any move
- `Position.ForcedMate`: a forced mate, with either side to move

## Main results

- `Position.Favours.legal`: what one side may play if it holds the man
- `Position.Favours.forcedMate`: a forced mate carries over
-/

namespace Shogi

namespace Position

/-- The same board, and for `c` at least the same hand against at most the same hand. -/
structure Favours (c : Color) (p q : Position) : Prop where
  man : q.man = p.man
  turn : q.turn = p.turn
  more : ∀ pt, p.hand c pt ≤ q.hand c pt
  fewer : ∀ pt, q.hand (~~~c) pt ≤ p.hand (~~~c) pt

section Legal

variable {c : Color} {p q : Position} {m : Move}

theorem men_congr (hman : q.man = p.man) : q.men = p.men := by
  unfold men
  rw [hman]

theorem occupied_congr (hman : q.man = p.man) : q.Occupied = p.Occupied := by
  unfold Occupied
  rw [hman]

/-- The board after a move depends on the board and the side to move. -/
theorem man_play_congr (hman : q.man = p.man) (hturn : q.turn = p.turn) :
    (q.play m).man = (p.play m).man := by
  have harriving : q.arriving m = p.arriving m := by
    cases m with
    | normal s t | promotion s t => simp only [arriving, hman]
    | drop pt t => simp only [arriving, hturn]
  simp only [play, harriving, hman]

/-- Beside the board only the man to be dropped matters. -/
theorem allowed_congr (hman : q.man = p.man) (hturn : q.turn = p.turn)
    (held : ∀ pt t, m = .drop pt t → 0 < q.hand q.turn pt) (h : p.Allowed m) : q.Allowed m := by
  have hgoes : ∀ {pt s t}, p.Goes pt s t → q.Goes pt s t := by
    rintro pt s t ⟨h1, h2, h3⟩
    refine ⟨?_, ?_, ?_⟩
    · rw [men_congr hman, hturn]
      exact h1
    · rw [occupied_congr hman, hturn]
      exact h2
    · rw [men_congr hman, hturn]
      exact h3
  cases h with
  | normal goes stay => exact .normal (hgoes goes) (hturn ▸ stay)
  | promotion goes able zone => exact .promotion (hgoes goes) able (hturn ▸ zone)
  | drop able _ empty stay single =>
    refine .drop able (held _ _ rfl) (hman ▸ empty) (hturn ▸ stay) fun hpt s hs => ?_
    rw [men_congr hman, hturn] at hs
    exact single hpt s hs

theorem dropsPawnOnKing_congr (hman : q.man = p.man) (hturn : q.turn = p.turn) :
    q.DropsPawnOnKing m ↔ p.DropsPawnOnKing m := by
  rw [DropsPawnOnKing, DropsPawnOnKing, men_congr hman, hturn]

/-- The check of a dropped pawn cannot be met by a drop. -/
theorem not_drop_of_pawn_check (ha : p.Allowed m) (hd : p.DropsPawnOnKing m) {m' : Move}
    (hm' : (p.play m).Legal m') : m'.isDrop = false := by
  obtain ⟨t, k, rfl, hk, hr⟩ := hd
  obtain ⟨ha', hsafe, -⟩ := legal_iff_answer.mp hm'
  cases m' with
  | normal | promotion => rfl
  | drop pt' t' =>
    refine absurd ?_ hsafe
    cases ha with
    | drop able _ empty _ _ =>
      cases ha' with
      | drop able' _ empty' _ _ =>
        have hpawn : (p.play (.drop .pawn t)).men p.turn .pawn t :=
          (men_drop_own empty).mpr (Or.inr ⟨rfl, rfl⟩)
        have hking : (p.play (.drop .pawn t)).men (~~~p.turn) .king k := by
          rw [men_drop_other empty (Color.compl_ne _)]
          exact hk
        -- both men stay where they are when something is dropped elsewhere
        have hstay : ∀ {c qt u}, (p.play (.drop .pawn t)).men c qt u →
            ((p.play (.drop .pawn t)).play (.drop pt' t')).men c qt u := by
          intro c qt u hu
          by_cases hc : c = (p.play (.drop .pawn t)).turn
          · subst hc
            exact (men_drop_own empty').mpr (Or.inl hu)
          · rw [men_drop_other empty' hc]
            exact hu
        refine ⟨k, hstay hking, .pawn, t, ?_, ?_⟩
        · have := hstay hpawn
          rwa [turn_play, Color.compl_compl]
        · rw [turn_play, Color.compl_compl]
          exact attacks_pawn_iff.mpr hr

theorem legal_board_congr (hman : q.man = p.man) (hturn : q.turn = p.turn)
    (hm : m.isDrop = false) (h : p.Legal m) : q.Legal m := by
  obtain ⟨ha, hsafe, -⟩ := legal_iff_answer.mp h
  refine legal_iff_answer.mpr ⟨allowed_congr hman hturn ?_ ha, ?_, ?_⟩
  · rintro pt t rfl
    cases hm
  · rw [hturn, inCheck_congr (man_play_congr hman hturn)]
    exact hsafe
  · rintro ⟨t, k, rfl, -⟩
    cases hm

/-- A move stays legal on the same board as long as the man to be dropped is there. Whether a pawn
drop mates does not depend on the hands. -/
theorem legal_congr (hman : q.man = p.man) (hturn : q.turn = p.turn)
    (held : ∀ pt t, m = .drop pt t → 0 < q.hand q.turn pt) (h : p.Legal m) : q.Legal m := by
  obtain ⟨ha, hsafe, hanswer⟩ := legal_iff_answer.mp h
  refine legal_iff_answer.mpr ⟨allowed_congr hman hturn held ha, ?_, fun hd => ?_⟩
  · rw [hturn, inCheck_congr (man_play_congr hman hturn)]
    exact hsafe
  · have hd' := (dropsPawnOnKing_congr hman hturn).mp hd
    obtain ⟨m', hm'⟩ := hanswer hd'
    refine ⟨m', legal_board_congr (man_play_congr hman hturn) ?_
      (not_drop_of_pawn_check ha hd' hm') hm'⟩
    rw [turn_play, turn_play, hturn]

theorem held_of_legal (h : p.Legal m) {pt : PieceType} {t : Square} (hm : m = .drop pt t) :
    0 < p.hand p.turn pt := by
  subst hm
  cases h.allowed with
  | drop able held empty stay single => exact held

end Legal

/-! ## Moves between favoured positions -/

section Favours

variable {c : Color} {p q : Position} {m : Move}

/-- More of a man stays more of it. -/
theorem handAfter_mono (hman : q.man = p.man) {pt : PieceType}
    (hle : p.hand p.turn pt ≤ q.hand q.turn pt) : p.handAfter m pt ≤ q.handAfter m pt := by
  cases m with
  | drop qt t =>
    simp only [handAfter]
    split
    · omega
    · exact hle
  | normal s t | promotion s t =>
    simp only [handAfter, hman]
    split
    · split
      · omega
      · exact hle
    · exact hle

theorem Favours.play (h : Favours c p q) : Favours c (p.play m) (q.play m) := by
  refine ⟨man_play_congr h.man h.turn, ?_, fun pt => ?_, fun pt => ?_⟩
  · rw [turn_play, turn_play, h.turn]
  · simp only [Position.play, h.turn]
    split
    · rename_i hc
      refine handAfter_mono h.man ?_
      rw [h.turn, ← hc]
      exact h.more pt
    · exact h.more pt
  · simp only [Position.play, h.turn]
    split
    · rename_i hc
      refine handAfter_mono h.man.symm ?_
      rw [h.turn, ← hc]
      exact h.fewer pt
    · exact h.fewer pt

/-- What the attacker may play in a position he may play in a better one. -/
theorem Favours.legal (h : Favours c p q) (hturn : p.turn = c) (hm : p.Legal m) : q.Legal m := by
  refine legal_congr h.man h.turn (fun pt t hdrop => ?_) hm
  rw [h.turn, hturn]
  exact (hturn ▸ held_of_legal hm hdrop).trans_le (h.more pt)

/-- What the defender may play in a position he may play in a better one for him. -/
theorem Favours.legal_of_other (h : Favours c p q) (hturn : p.turn = ~~~c) (hm : q.Legal m) :
    p.Legal m := by
  refine legal_congr h.man.symm h.turn.symm (fun pt t hdrop => ?_) hm
  have hheld := held_of_legal hm hdrop
  rw [h.turn, hturn] at hheld
  rw [hturn]
  exact hheld.trans_le (h.fewer pt)

theorem Favours.inCheck (h : Favours c p q) (hcheck : p.InCheck p.turn) : q.InCheck q.turn := by
  rw [h.turn, inCheck_congr h.man]
  exact hcheck

theorem Favours.checkmate (h : Favours c p q) (hturn : p.turn = ~~~c) (hmate : p.Checkmate) :
    q.Checkmate :=
  ⟨h.inCheck hmate.1, fun m hm => hmate.2 m (h.legal_of_other hturn hm)⟩

end Favours

/-! ## Forced mates -/

/-- One side gives check with every legal move and wins by mate, the other answers with any legal
move. -/
def mateGame : AttackGame Position where
  attack p q := ∃ m, p.Legal m ∧ q = p.play m ∧ q.InCheck q.turn
  reply p q := ∃ m, p.Legal m ∧ q = p.play m
  attackWins q := q.Checkmate
  attackOpen _ := True
  replyLoses _ := False
  replyOpen _ := True

/-- `c` mates by force within `n` plies, whichever side is to move. -/
def ForcedMate (c : Color) (n : Nat) (p : Position) : Prop :=
  (p.turn = c ∧ mateGame.WinsWithin n p) ∨
    (p.turn = ~~~c ∧ p.InCheck p.turn ∧
      ∀ q, mateGame.reply p q → ∃ k < n, mateGame.WinsWithin k q)

/-- `c` mates by force. -/
def Mate (c : Color) (p : Position) : Prop := ∃ n, p.ForcedMate c n

section Mates

variable {c : Color} {p q : Position} {n : Nat}

/-- The attacker of a better position plays as in the worse one. -/
theorem simulates_favours (c : Color) : AttackGame.Simulates mateGame mateGame
    (fun p q => Favours c p q ∧ p.turn = c) fun p q => Favours c p q ∧ p.turn = ~~~c where
  attack := by
    rintro p p' q ⟨h, hturn⟩ ⟨m, hm, rfl, hcheck⟩
    exact ⟨q.play m, ⟨m, h.legal hturn hm, rfl, h.play.inCheck hcheck⟩, h.play, by
      rw [turn_play, hturn]⟩
  reply := by
    rintro p q q' ⟨h, hturn⟩ ⟨m, hm, rfl⟩
    exact ⟨p.play m, ⟨m, h.legal_of_other hturn hm, rfl⟩, h.play, by
      rw [turn_play, hturn, Color.compl_compl]⟩
  attackWins := by
    rintro p q ⟨h, hturn⟩ hmate
    exact h.checkmate hturn hmate
  attackOpen _ _ := trivial
  replyLoses _ hl := hl
  replyOpen _ _ := trivial

/-- A forced mate carries over to a better position. -/
theorem Favours.forcedMate (h : Favours c p q) (hmate : p.ForcedMate c n) : q.ForcedMate c n := by
  have hsim := simulates_favours c
  rcases hmate with ⟨hturn, hwin⟩ | ⟨hturn, hcheck, hwin⟩
  · exact Or.inl ⟨h.turn.trans hturn, hsim.winsWithin ⟨h, hturn⟩ hwin⟩
  · refine Or.inr ⟨h.turn.trans hturn, h.inCheck hcheck, fun q' hq' => ?_⟩
    obtain ⟨p', hp', hfav⟩ := hsim.reply ⟨h, hturn⟩ hq'
    obtain ⟨k, hk, hwink⟩ := hwin p' hp'
    exact ⟨k, hk, hsim.winsWithin hfav hwink⟩

/-- Men moved from the defender's hand to the attacker's favour the attacker. -/
theorem favours_of_transfer (hman : q.man = p.man) (hturn : q.turn = p.turn)
    (more : ∀ pt, p.hand c pt ≤ q.hand c pt)
    (total : ∀ pt, q.hand c pt + q.hand (~~~c) pt = p.hand c pt + p.hand (~~~c) pt) :
    Favours c p q := by
  refine ⟨hman, hturn, more, fun pt => ?_⟩
  have h1 := more pt
  have h2 := total pt
  omega

end Mates

end Position

end Shogi
