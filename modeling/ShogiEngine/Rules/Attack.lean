import ShogiEngine.Rules.Geometry

/-!
# Attacks, checks and pins

One side's men as a relation, and what happens to their attacks on a fixed square when a man
of the other side moves or is dropped. The fixed square is usually that of a king.

## Main definitions

- `Men.Checks`, `Men.Pins`: a man that attacks the square, or would if one man went away
- `Resolves`: moving to a square captures the man or steps into its way

## Main results

- `not_attacked_move_iff`, `not_attacked_drop_iff`: when the square is safe after a move
- `pins_resolved_iff`: a pinned man may move exactly along the pin
- `eq_of_resolves`: no single move meets two attacks
-/

namespace Shogi

/-- The men of one side: `M pt s` says that a man of type `pt` stands on `s`. -/
abbrev Men := PieceType → Square → Prop

/-- The occupied squares after the man on `x` has moved to `t`. -/
def afterMove (occ : Square → Prop) (x t : Square) : Square → Prop := fun u => u = t ∨ occ u ∧ u ≠ x

/-- The occupied squares after a man has been dropped on `t`. -/
def afterDrop (occ : Square → Prop) (t : Square) : Square → Prop := fun u => u = t ∨ occ u

/-- A man that goes to `t` captures the man on `s` or steps between it and `k`. -/
def Resolves (k s t : Square) : Prop := t = s ∨ Between k t s

namespace Men

variable (M : Men) (c : Color) (occ : Square → Prop)

/-- Some man attacks the square. -/
def Attacked (t : Square) : Prop := ∃ pt s, M pt s ∧ Attacks pt c occ s t

/-- The man on `s` attacks `k`. -/
def Checks (k s : Square) : Prop := ∃ pt, M pt s ∧ Attacks pt c occ s k

/-- The man on `s` would attack `k` if the man on `x` went away. -/
def Pins (k x s : Square) : Prop := ∃ pt, M pt s ∧ Reach pt c s k ∧ SoleBlocker occ k x s

/-- The men that are left after the one on `t` has been captured. -/
def without (t : Square) : Men := fun pt s => M pt s ∧ s ≠ t

variable {M c occ}

theorem attacked_iff_exists_checks {k : Square} :
    M.Attacked c occ k ↔ ∃ s, M.Checks c occ k s := exists_comm

theorem Checks.clear {k s : Square} (h : M.Checks c occ k s) : Clear occ k s :=
  let ⟨_, _, ha⟩ := h
  LineSystem.clear_comm.mp ha.2

/-- Nobody reaches the square he stands on. -/
theorem not_reach_self {pt : PieceType} {s : Square} : ¬ Reach pt c s s := by
  intro h
  rw [reach_iff] at h
  cases pt <;> cases c <;> simp only at h <;> omega

theorem Checks.ne {k s : Square} (h : M.Checks c occ k s) : s ≠ k := by
  rintro rfl
  obtain ⟨pt, -, ha⟩ := h
  exact not_reach_self ha.1

/-! ## After a move or a drop -/

/-- The way to a square after the man on `x` has moved to `t`. -/
theorem clear_afterMove_iff {k x s t : Square} : Clear (afterMove occ x t) s k ↔
    ¬ Between k t s ∧ (Clear occ s k ∨ SoleBlocker occ k x s) :=
  LineSystem.clear_comm.trans ((LineSystem.clear_move_iff fun _ => Iff.rfl).trans
    (and_congr_right fun _ => or_congr_left LineSystem.clear_comm))

theorem attacked_move_iff {k x t : Square} :
    (M.without t).Attacked c (afterMove occ x t) k ↔
      ∃ s, (M.Checks c occ k s ∨ M.Pins c occ k x s) ∧ ¬ Resolves k s t := by
  constructor
  · rintro ⟨pt, s, ⟨hm, hne⟩, hr, hc⟩
    obtain ⟨hb, hc⟩ := clear_afterMove_iff.mp hc
    exact ⟨s, hc.imp (fun h => ⟨pt, hm, hr, h⟩) fun h => ⟨pt, hm, hr, h⟩,
      fun h => h.elim (fun e => hne e.symm) hb⟩
  · rintro ⟨s, ⟨pt, hm, hr, hc⟩ | ⟨pt, hm, hr, hc⟩, hres⟩
    · exact ⟨pt, s, ⟨hm, fun e => hres (Or.inl e.symm)⟩, hr,
        clear_afterMove_iff.mpr ⟨fun h => hres (Or.inr h), Or.inl hc⟩⟩
    · exact ⟨pt, s, ⟨hm, fun e => hres (Or.inl e.symm)⟩, hr,
        clear_afterMove_iff.mpr ⟨fun h => hres (Or.inr h), Or.inr hc⟩⟩

/-- A square is safe after a move iff the move meets every attack on it and every attack that
the moving man used to block. -/
theorem not_attacked_move_iff {k x t : Square} :
    ¬ (M.without t).Attacked c (afterMove occ x t) k ↔
      (∀ s, M.Checks c occ k s → Resolves k s t) ∧ ∀ s, M.Pins c occ k x s → Resolves k s t := by
  rw [attacked_move_iff]
  constructor
  · exact fun h => ⟨fun s hs => by_contra fun hr => h ⟨s, Or.inl hs, hr⟩,
      fun s hs => by_contra fun hr => h ⟨s, Or.inr hs, hr⟩⟩
  · rintro ⟨h1, h2⟩ ⟨s, hs | hs, hr⟩
    · exact hr (h1 s hs)
    · exact hr (h2 s hs)

/-- A square is safe after a drop iff the drop steps into every attack on it. -/
theorem not_attacked_drop_iff {k t : Square} :
    ¬ M.Attacked c (afterDrop occ t) k ↔ ∀ s, M.Checks c occ k s → Between k t s := by
  have hclear : ∀ s, Clear (afterDrop occ t) s k ↔ ¬ Between k t s ∧ Clear occ s k := fun s =>
    LineSystem.clear_comm.trans ((LineSystem.clear_add_iff fun u => Iff.rfl).trans
      (and_congr_right fun _ => LineSystem.clear_comm))
  constructor
  · rintro h s ⟨pt, hm, hr, hc⟩
    by_contra hb
    exact h ⟨pt, s, hm, hr, (hclear s).mpr ⟨hb, hc⟩⟩
  · rintro h ⟨pt, s, hm, hr, hc⟩
    obtain ⟨hb, hc⟩ := (hclear s).mp hc
    exact hb (h s ⟨pt, hm, hr, hc⟩)

/-- The occupancy of the attacked square itself does not matter. -/
theorem attacked_congr {occ' : Square → Prop} {t : Square} (h : ∀ u, u ≠ t → (occ u ↔ occ' u)) :
    M.Attacked c occ t ↔ M.Attacked c occ' t :=
  exists_congr fun _ => exists_congr fun _ => and_congr_right fun _ => and_congr_right fun _ =>
    LineSystem.clear_congr_of_ne fun u _ hu => h u hu

/-- Nobody attacks the square he stands on, so capturing there changes nothing else. -/
theorem attacked_without {t : Square} : (M.without t).Attacked c occ t ↔ M.Attacked c occ t := by
  refine exists_congr fun pt => exists_congr fun s => ?_
  constructor
  · exact fun h => ⟨h.1.1, h.2⟩
  · rintro ⟨hm, ha⟩
    exact ⟨⟨hm, fun e => not_reach_self (e ▸ ha.1)⟩, ha⟩

/-! ## Pins and double checks -/

/-- A man that moves over a clear way keeps a pin closed iff it stays on the line of the
pin. -/
theorem pins_resolved_iff {k x t : Square} (hM : ∀ pt s, M pt s → occ s) (hk : occ k)
    (htk : t ≠ k) (hway : Clear occ x t) :
    (∀ s, M.Pins c occ k x s → Resolves k s t) ↔
      ((∃ s, M.Pins c occ k x s) → OnLine x k t) := by
  constructor
  · rintro h ⟨s, hs⟩
    obtain ⟨pt, hm, hr, hb⟩ := hs
    rcases h s ⟨pt, hm, hr, hb⟩ with rfl | ht
    · exact hb.1.onLine_right
    · exact LineSystem.onLine_of_between hb.1 ht
  · intro h s hs
    have hline := h ⟨s, hs⟩
    obtain ⟨pt, hm, -, hb⟩ := hs
    rcases hb.between_of_onLine hk (hM pt s hm) hway hline with h | h | h
    · exact absurd h htk
    · exact Or.inl h
    · exact Or.inr h

/-- One square meets at most one attack. -/
theorem eq_of_resolves {k s s' t : Square} (hM : ∀ pt s, M pt s → occ s)
    (hs : M.Checks c occ k s) (hs' : M.Checks c occ k s') (hr : Resolves k s t)
    (hr' : Resolves k s' t) : s = s' := by
  have ho : ∀ {s}, M.Checks c occ k s → occ s := fun ⟨pt, hm, _⟩ => hM pt _ hm
  rcases hr with rfl | hr
  · rcases hr' with rfl | hr'
    · rfl
    · exact absurd (ho hs) (hs'.clear _ hr')
  · rcases hr' with rfl | hr'
    · exact absurd (ho hs') (hs.clear _ hr)
    · exact LineSystem.eq_of_clear_of_between hr hr' (ho hs) (ho hs') hs.clear hs'.clear

/-- A pinning man slides. -/
theorem Pins.slides {k x s : Square} {pt : PieceType} (hr : Reach pt c s k)
    (hb : SoleBlocker occ k x s) :
    (pt = .rook ∨ pt = .dragon) ∧ Reach .rook c s k ∨
      (pt = .bishop ∨ pt = .horse) ∧ Reach .bishop c s k ∨
      pt = .lance ∧ Reach .lance c s k := by
  have hbtw := between_iff.mp hb.1
  have hr' := (reach_iff pt c s k).mp hr
  cases pt with
  | rook => exact Or.inl ⟨Or.inl rfl, hr⟩
  | bishop => exact Or.inr (Or.inl ⟨Or.inl rfl, hr⟩)
  | lance => exact Or.inr (Or.inr ⟨rfl, hr⟩)
  | dragon =>
    refine Or.inl ⟨Or.inr rfl, ?_⟩
    rw [reach_iff]
    simp only at hr' ⊢
    omega
  | horse =>
    refine Or.inr (Or.inl ⟨Or.inr rfl, ?_⟩)
    rw [reach_iff]
    simp only at hr' ⊢
    omega
  | _ => cases c <;> simp only at hr' <;> omega

theorem reach_dragon_of_rook {s t : Square} (h : Reach .rook c s t) : Reach .dragon c s t := by
  rw [reach_iff] at h ⊢
  simp only at h ⊢
  omega

theorem reach_horse_of_bishop {s t : Square} (h : Reach .bishop c s t) : Reach .horse c s t := by
  rw [reach_iff] at h ⊢
  simp only at h ⊢
  omega

end Men

end Shogi
