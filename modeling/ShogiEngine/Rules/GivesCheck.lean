import ShogiEngine.Rules.Position

/-!
# Moves that give check

When a move leaves the enemy king in check, if that king was safe before: the man that arrives
attacks it, or the man that leaves opens a line.

## Main definitions

- `Move.arrives`: the type with which a man arrives
- `Position.Discovers`: the man on a square shields the enemy king from an own man

## Main results

- `Position.inCheck_play_enemy`: direct and discovered checks
-/

namespace Shogi

/-- The type with which a man of type `pt` arrives. -/
def Move.arrives (m : Move) (pt : PieceType) : PieceType := if m.isPromotion then pt.promote else pt

namespace Position

variable {p : Position} {m : Move} {pt : PieceType} {s t k : Square}

theorem Moves.arriving_eq (h : p.Moves m pt s t) : p.arriving m = some ⟨p.turn, m.arrives pt⟩ := by
  have hsrc := h.src
  have hman : p.man s = some ⟨p.turn, pt⟩ := h.goes.man
  cases m with
  | normal s' t' =>
    cases hsrc
    exact hman
  | promotion s' t' =>
    cases hsrc
    rw [Position.arriving, hman]
    rfl
  | drop => cases hsrc

theorem Moves.men_dst (h : p.Moves m pt s t) {qt : PieceType} :
    (p.play m).men p.turn qt t ↔ qt = m.arrives pt := by
  rw [men, ← h.dst, man_play_dst, h.arriving_eq, Option.some.injEq, Piece.mk.injEq]
  exact (and_iff_right rfl).trans eq_comm

/-- Men of the mover elsewhere than on the destination stood there before. -/
theorem Moves.men_of_ne (h : p.Moves m pt s t) {qt : PieceType} {u : Square} (ht : u ≠ t) :
    (p.play m).men p.turn qt u ↔ p.men p.turn qt u ∧ u ≠ s := by
  by_cases hs : u = s
  · subst hs
    simp [men, h.man_src]
  · rw [h.own hs ht]
    exact (and_iff_left hs).symm

/-- The enemy king cannot be captured if it is not in check. -/
theorem Moves.dst_ne_king (h : p.Moves m pt s t) (hk : p.KingAt (~~~p.turn) k)
    (hsafe : ¬ p.InCheck (~~~p.turn)) : t ≠ k := by
  rintro rfl
  refine hsafe ⟨t, (hk t).mpr rfl, pt, s, ?_, ?_⟩
  · rw [Color.compl_compl]
    exact h.goes.man
  · rw [Color.compl_compl]
    exact h.goes.attacks

theorem Moves.enemy_king (h : p.Moves m pt s t) (hk : p.KingAt (~~~p.turn) k) (htk : t ≠ k) :
    (p.play m).KingAt (~~~p.turn) k := by
  intro u
  rw [h.enemies, Men.without, hk u, and_iff_left_of_imp]
  rintro rfl
  exact htk.symm

/-- An own man would attack `k` if the man on `s` went away. -/
def Discovers (p : Position) (k s : Square) : Prop :=
  ∃ x, (p.men p.turn).Pins p.turn p.Occupied k s x

/-- A move checks a king that was not in check if the man that arrives attacks it, or the man that
leaves has shielded it and leaves the line. -/
theorem inCheck_play_enemy (hk : p.KingAt (~~~p.turn) k) (hsafe : ¬ p.InCheck (~~~p.turn))
    (h : p.Moves m pt s t) : (p.play m).InCheck (~~~p.turn) ↔
      Attacks (m.arrives pt) p.turn (fun u => p.Occupied u ∧ u ≠ s) t k ∨
        p.Discovers k s ∧ ¬ OnLine s k t := by
  have htk := h.dst_ne_king hk hsafe
  have hocc : (p.play m).Occupied = afterMove p.Occupied s t := funext fun u => propext h.occupied
  have hko : p.Occupied k := occupied_of_men ((hk k).mpr rfl)
  have hdirect : Attacks (m.arrives pt) p.turn (afterMove p.Occupied s t) t k ↔
      Attacks (m.arrives pt) p.turn (fun u => p.Occupied u ∧ u ≠ s) t k :=
    and_congr_right fun _ => LineSystem.clear_congr_of_ne fun u hu _ => or_iff_right hu
  have hresolved := Men.pins_resolved_iff (M := p.men p.turn) (c := p.turn) men_subset_occupied hko htk
    h.goes.attacks.2
  rw [inCheck_iff hk, Color.compl_compl] at hsafe
  rw [inCheck_iff (h.enemy_king hk htk), Color.compl_compl, hocc]
  constructor
  · rintro ⟨qt, u, hu, hr, hc⟩
    by_cases hut : u = t
    · subst hut
      cases h.men_dst.mp hu
      exact Or.inl (hdirect.mp ⟨hr, hc⟩)
    · -- the attack comes from a man that was there before, over the square that was left
      have hman := ((h.men_of_ne hut).mp hu).1
      obtain ⟨hb, hc⟩ := Men.clear_afterMove_iff.mp hc
      have hpin : (p.men p.turn).Pins p.turn p.Occupied k s u :=
        ⟨qt, hman, hr, hc.resolve_left fun hc => hsafe ⟨qt, u, hman, hr, hc⟩⟩
      refine Or.inr ⟨⟨u, hpin⟩, fun hline => ?_⟩
      exact (hresolved.mpr (fun _ => hline) u hpin).elim (fun e => hut e.symm) hb
  · rintro (ha | ⟨hx, hline⟩)
    · exact ⟨_, t, h.men_dst.mpr rfl, hdirect.mpr ha⟩
    · obtain ⟨x, hpin, hres⟩ : ∃ x, (p.men p.turn).Pins p.turn p.Occupied k s x ∧
          ¬ Resolves k x t := by
        by_contra hno
        push Not at hno
        exact hline (hresolved.mp hno hx)
      obtain ⟨qt, hman, hr, hb⟩ := hpin
      have hxt : x ≠ t := fun e => hres (Or.inl e.symm)
      refine ⟨qt, x, (h.men_of_ne hxt).mpr ⟨hman, hb.1.ne_right.symm⟩, hr, ?_⟩
      exact Men.clear_afterMove_iff.mpr ⟨fun hb => hres (Or.inr hb), Or.inr hb⟩

/-- A king that moves safely does not step next to the other king. -/
theorem not_reach_king_of_safe {l : Square} (hl : p.KingAt p.turn l)
    (hk : p.KingAt (~~~p.turn) k) (h : p.Moves m .king s t) (htk : t ≠ k)
    (hsafe : ¬ (p.play m).InCheck p.turn) : ¬ Reach .king p.turn t k := by
  intro hr
  refine hsafe ⟨t, (h.king hl t).mpr (if_pos rfl).symm, .king, k, ?_, reach_symm.mpr hr, ?_⟩
  · exact (h.enemy_king hk htk k).mpr rfl
  · rw [reach_iff] at hr
    intro u hu
    have hb := between_iff.mp hu
    simp only at hr
    omega

end Position

end Shogi
