import Mathlib

/-!
# Line systems

A line system cuts a set of points into lines of several kinds. Each line of a kind is
linearly ordered, and two distinct points share at most one line. This is what a board game
needs to know about its board to speak of sliding pieces: which points lie strictly between
two points, whether the way between them is clear, and what happens to the way when one
man moves.

## Main definitions

- `LineSystem.Between`: strict betweenness on a common line
- `LineSystem.OnLine`: membership in the line through two distinct points
- `LineSystem.Clear`: no occupied point strictly between two points
- `LineSystem.SoleBlocker`: the only occupied point between two points

## Main results

- `clear_move_iff`: the way between two points after a man has moved
- `SoleBlocker.between_of_onLine`: a blocker that moves along its line keeps blocking
- `eq_of_clear_of_between`: one point interrupts at most one clear way to a given point
-/

universe u v w x

/-- Lines of the kinds `K` on the points `P`. `inv k` names the line of kind `k` through a
point and `pos k` is the position of the point on it. -/
structure LineSystem (P : Type u) (K : Type v) (L : Type w) (O : Type x) where
  inv : K → P → L
  pos : K → P → O
  inj : ∀ {k p q}, inv k p = inv k q → pos k p = pos k q → p = q
  kind_unique : ∀ {k k' p q}, p ≠ q → inv k p = inv k q → inv k' p = inv k' q → k = k'

namespace LineSystem

variable {P : Type u} {K : Type v} {L : Type w} {O : Type x} [LinearOrder O]
variable (S : LineSystem P K L O)

/-- `u` lies strictly between `p` and `q` on a line of kind `k`. -/
def BetweenOn (k : K) (p u q : P) : Prop :=
  S.inv k p = S.inv k u ∧ S.inv k u = S.inv k q ∧
    (S.pos k p < S.pos k u ∧ S.pos k u < S.pos k q ∨
      S.pos k q < S.pos k u ∧ S.pos k u < S.pos k p)

/-- `u` lies strictly between `p` and `q` on a common line. -/
def Between (p u q : P) : Prop := ∃ k, S.BetweenOn k p u q

/-- `u` lies on the line through the distinct points `p` and `q`. -/
def OnLine (p q u : P) : Prop := p ≠ q ∧ ∃ k, S.inv k p = S.inv k q ∧ S.inv k q = S.inv k u

/-- No occupied point lies strictly between `p` and `q`. -/
def Clear (occ : P → Prop) (p q : P) : Prop := ∀ u, S.Between p u q → ¬ occ u

/-- `x` is the only occupied point strictly between `p` and `q`. -/
def SoleBlocker (occ : P → Prop) (p x q : P) : Prop :=
  S.Between p x q ∧ ∀ u, S.Between p u q → occ u → u = x

variable {S}

/-! ## Betweenness -/

theorem BetweenOn.symm {k : K} {p u q : P} (h : S.BetweenOn k p u q) : S.BetweenOn k q u p :=
  ⟨h.2.1.symm, h.1.symm, h.2.2.symm⟩

theorem Between.symm {p u q : P} (h : S.Between p u q) : S.Between q u p :=
  let ⟨k, hk⟩ := h
  ⟨k, hk.symm⟩

/-- A map that keeps the lines and reverses the order on them keeps what lies between. -/
theorem between_map {f : P → P} (hinv : ∀ k p q, S.inv k (f p) = S.inv k (f q) ↔
      S.inv k p = S.inv k q)
    (hpos : ∀ k p q, S.pos k (f p) < S.pos k (f q) ↔ S.pos k q < S.pos k p) {p u q : P} :
    S.Between (f p) (f u) (f q) ↔ S.Between p u q := by
  refine exists_congr fun k => ?_
  rw [BetweenOn, hinv, hinv, hpos, hpos, hpos, hpos, BetweenOn]
  exact and_congr_right fun _ => and_congr_right fun _ =>
    ⟨fun h => h.symm.imp And.symm And.symm, fun h => h.symm.imp And.symm And.symm⟩

theorem BetweenOn.ne_left {k : K} {p u q : P} (h : S.BetweenOn k p u q) : u ≠ p := by
  rintro rfl
  obtain ⟨-, -, h | h⟩ := h
  · exact lt_irrefl _ h.1
  · exact lt_irrefl _ h.2

theorem BetweenOn.ne {k : K} {p u q : P} (h : S.BetweenOn k p u q) : p ≠ q := by
  rintro rfl
  obtain ⟨-, -, h | h⟩ := h
  · exact lt_asymm h.1 h.2
  · exact lt_asymm h.1 h.2

theorem Between.ne_left {p u q : P} (h : S.Between p u q) : u ≠ p :=
  let ⟨_, hk⟩ := h
  hk.ne_left

theorem Between.ne_right {p u q : P} (h : S.Between p u q) : u ≠ q := h.symm.ne_left

theorem Between.ne {p u q : P} (h : S.Between p u q) : p ≠ q :=
  let ⟨_, hk⟩ := h
  hk.ne

/-- What lies between `p` and an inner point lies between `p` and the end. -/
theorem Between.trans {p u v q : P} (hu : S.Between p u v) (hv : S.Between p v q) :
    S.Between p u q := by
  obtain ⟨k, hu⟩ := hu
  obtain ⟨k', hv⟩ := hv
  have hk : k = k' := S.kind_unique hv.ne_left.symm (hu.1.trans hu.2.1) hv.1
  subst hk
  obtain ⟨hu1, hu2, hu3⟩ := hu
  obtain ⟨hv1, hv2, hv3⟩ := hv
  refine ⟨k, hu1, hu2.trans hv2, ?_⟩
  rcases hu3 with hu3 | hu3 <;> rcases hv3 with hv3 | hv3
  · exact Or.inl ⟨hu3.1, hu3.2.trans hv3.2⟩
  · exact absurd (hu3.1.trans hu3.2) (lt_asymm hv3.2)
  · exact absurd (hu3.1.trans hu3.2) (lt_asymm hv3.1)
  · exact Or.inr ⟨hv3.1.trans hu3.1, hu3.2⟩

/-- An inner point separates the points on its two sides. -/
theorem Between.shift {p u v q : P} (hu : S.Between p u v) (hv : S.Between p v q) :
    S.Between u v q := by
  obtain ⟨k, hu⟩ := hu
  obtain ⟨k', hv⟩ := hv
  have hk : k = k' := S.kind_unique hv.ne_left.symm (hu.1.trans hu.2.1) hv.1
  subst hk
  obtain ⟨hu1, hu2, hu3⟩ := hu
  obtain ⟨hv1, hv2, hv3⟩ := hv
  refine ⟨k, hu2, hv2, ?_⟩
  rcases hu3 with hu3 | hu3 <;> rcases hv3 with hv3 | hv3
  · exact Or.inl ⟨hu3.2, hv3.2⟩
  · exact absurd (hu3.1.trans hu3.2) (lt_asymm hv3.2)
  · exact absurd (hu3.1.trans hu3.2) (lt_asymm hv3.1)
  · exact Or.inr ⟨hv3.1, hu3.1⟩

/-! ## Lines -/

omit [LinearOrder O] in
theorem OnLine.symm {p q u : P} (h : S.OnLine p q u) : S.OnLine q p u :=
  let ⟨hne, k, h1, h2⟩ := h
  ⟨hne.symm, k, h1.symm, h1.trans h2⟩

omit [LinearOrder O] in
theorem onLine_comm {p q u : P} : S.OnLine p q u ↔ S.OnLine q p u :=
  ⟨OnLine.symm, OnLine.symm⟩

/-- All points of a line span the same line. -/
theorem onLine_of_between {p u v q : P} (hu : S.Between p u q) (hv : S.Between p v q) :
    S.OnLine u p v := by
  obtain ⟨k, hu⟩ := hu
  obtain ⟨k', hv⟩ := hv
  have hk : k = k' := S.kind_unique hu.ne (hu.1.trans hu.2.1) (hv.1.trans hv.2.1)
  subst hk
  exact ⟨hu.ne_left, k, hu.1.symm, hv.1⟩

theorem Between.onLine_right {p u q : P} (h : S.Between p u q) : S.OnLine u p q :=
  let ⟨k, hk⟩ := h
  ⟨hk.ne_left, k, hk.1.symm, hk.1.trans hk.2.1⟩

theorem Between.onLine {p u q : P} (h : S.Between p u q) : S.OnLine p q u :=
  let ⟨k, hk⟩ := h
  ⟨hk.ne, k, hk.1.trans hk.2.1, hk.2.1.symm⟩

/-! ## Clear ways -/

theorem clear_comm {occ : P → Prop} {p q : P} : S.Clear occ p q ↔ S.Clear occ q p :=
  ⟨fun h u hu => h u hu.symm, fun h u hu => h u hu.symm⟩

theorem Clear.symm {occ : P → Prop} {p q : P} (h : S.Clear occ p q) : S.Clear occ q p :=
  clear_comm.mp h

theorem Clear.mono {occ occ' : P → Prop} {p q : P} (h : S.Clear occ p q)
    (hsub : ∀ u, S.Between p u q → occ' u → occ u) : S.Clear occ' p q :=
  fun u hu ho => h u hu (hsub u hu ho)

theorem clear_congr {occ occ' : P → Prop} {p q : P}
    (h : ∀ u, S.Between p u q → (occ u ↔ occ' u)) : S.Clear occ p q ↔ S.Clear occ' p q :=
  ⟨fun hc => hc.mono fun u hu => (h u hu).mpr, fun hc => hc.mono fun u hu => (h u hu).mp⟩

/-- The ends of a way do not matter for it. -/
theorem clear_congr_of_ne {occ occ' : P → Prop} {p q : P}
    (h : ∀ u, u ≠ p → u ≠ q → (occ u ↔ occ' u)) : S.Clear occ p q ↔ S.Clear occ' p q :=
  clear_congr fun u hu => h u hu.ne_left hu.ne_right

/-- The way between two points after the man on `x` has gone to `t`. -/
theorem clear_move_iff {occ occ' : P → Prop} {p q x t : P}
    (hocc : ∀ u, occ' u ↔ u = t ∨ occ u ∧ u ≠ x) :
    S.Clear occ' p q ↔
      ¬ S.Between p t q ∧ (S.Clear occ p q ∨ S.SoleBlocker occ p x q) := by
  constructor
  · intro h
    refine ⟨fun ht => h t ht ((hocc t).mpr (Or.inl rfl)), ?_⟩
    by_cases hb : S.Between p x q
    · right
      refine ⟨hb, fun u hu ho => ?_⟩
      by_contra hne
      exact h u hu ((hocc u).mpr (Or.inr ⟨ho, hne⟩))
    · left
      intro u hu ho
      have hne : u ≠ x := fun e => hb (e ▸ hu)
      exact h u hu ((hocc u).mpr (Or.inr ⟨ho, hne⟩))
  · rintro ⟨ht, h | ⟨-, h⟩⟩ u hu ho
    · rcases (hocc u).mp ho with rfl | ⟨ho, -⟩
      · exact ht hu
      · exact h u hu ho
    · rcases (hocc u).mp ho with rfl | ⟨ho, hne⟩
      · exact ht hu
      · exact hne (h u hu ho)

/-- The way between two points after a man has been put on `t`. -/
theorem clear_add_iff {occ occ' : P → Prop} {p q t : P} (hocc : ∀ u, occ' u ↔ u = t ∨ occ u) :
    S.Clear occ' p q ↔ ¬ S.Between p t q ∧ S.Clear occ p q := by
  constructor
  · exact fun h => ⟨fun ht => h t ht ((hocc t).mpr (Or.inl rfl)),
      h.mono fun u _ ho => (hocc u).mpr (Or.inr ho)⟩
  · rintro ⟨ht, h⟩ u hu ho
    rcases (hocc u).mp ho with rfl | ho
    · exact ht hu
    · exact h u hu ho

/-- A man that is alone between `a` and `s` and moves along that line over clear points
stays between them, or reaches one of them. -/
theorem SoleBlocker.between_of_onLine {occ : P → Prop} {a x s t : P}
    (hb : S.SoleBlocker occ a x s) (ha : occ a) (hs : occ s)
    (hclear : S.Clear occ x t) (hline : S.OnLine x a t) :
    t = a ∨ t = s ∨ S.Between a t s := by
  obtain ⟨⟨k, hk⟩, -⟩ := hb
  obtain ⟨hxa, k', h1, h2⟩ := hline
  have hkk : k' = k := S.kind_unique hxa h1 hk.1.symm
  subst hkk
  obtain ⟨hk1, hk2, hk3⟩ := hk
  by_cases hta : t = a
  · exact Or.inl hta
  by_cases hts : t = s
  · exact Or.inr (Or.inl hts)
  have hxt' : S.inv k' x = S.inv k' t := h1.trans h2
  have hta' : S.pos k' t ≠ S.pos k' a := fun h => hta (S.inj h2.symm h)
  have hts' : S.pos k' t ≠ S.pos k' s := fun h => hts (S.inj (hxt'.symm.trans hk2) h)
  -- an end strictly between `x` and `t` would block the way
  have na : ¬ S.BetweenOn k' x a t := fun h => hclear a ⟨k', h⟩ ha
  have ns : ¬ S.BetweenOn k' x s t := fun h => hclear s ⟨k', h⟩ hs
  refine Or.inr (Or.inr ⟨k', h2, hxt'.symm.trans hk2, ?_⟩)
  have na' : ¬ (S.pos k' x < S.pos k' a ∧ S.pos k' a < S.pos k' t ∨
      S.pos k' t < S.pos k' a ∧ S.pos k' a < S.pos k' x) := fun h => na ⟨h1, h2, h⟩
  have ns' : ¬ (S.pos k' x < S.pos k' s ∧ S.pos k' s < S.pos k' t ∨
      S.pos k' t < S.pos k' s ∧ S.pos k' s < S.pos k' x) :=
    fun h => ns ⟨hk2, hk2.symm.trans hxt', h⟩
  rcases hk3 with ⟨h3, h4⟩ | ⟨h3, h4⟩
  · refine Or.inl ⟨lt_of_not_ge fun h => na' (Or.inr ⟨lt_of_le_of_ne h hta', h3⟩), ?_⟩
    exact lt_of_not_ge fun h => ns' (Or.inl ⟨h4, lt_of_le_of_ne h (Ne.symm hts')⟩)
  · refine Or.inr ⟨lt_of_not_ge fun h => ns' (Or.inr ⟨lt_of_le_of_ne h hts', h3⟩), ?_⟩
    exact lt_of_not_ge fun h => na' (Or.inl ⟨h4, lt_of_le_of_ne h (Ne.symm hta')⟩)

/-- One point interrupts at most one clear way that starts at a given point and ends on an
occupied one. -/
theorem eq_of_clear_of_between {occ : P → Prop} {p u s s' : P} (hu : S.Between p u s)
    (hu' : S.Between p u s') (hs : occ s) (hs' : occ s') (hc : S.Clear occ p s)
    (hc' : S.Clear occ p s') : s = s' := by
  by_contra hne
  obtain ⟨k, hu⟩ := hu
  obtain ⟨k', hu'⟩ := hu'
  have hk : k = k' := S.kind_unique hu.ne_left hu.1.symm hu'.1.symm
  subst hk
  obtain ⟨h1, h2, h3⟩ := hu
  obtain ⟨h1', h2', h3'⟩ := hu'
  have hss : S.inv k s = S.inv k s' := h2.symm.trans h2'
  have hps : S.inv k p = S.inv k s := h1.trans h2
  have hpos : S.pos k s ≠ S.pos k s' := fun h => hne (S.inj hss h)
  rcases lt_or_gt_of_ne hpos with h | h
  · rcases h3 with h3 | h3
    · exact hc' s ⟨k, hps, hss, Or.inl ⟨h3.1.trans h3.2, h⟩⟩ hs
    · refine hc s' ⟨k, hps.trans hss, hss.symm, Or.inr ⟨h, ?_⟩⟩ hs'
      rcases h3' with h3' | h3' <;> order
  · rcases h3' with h3' | h3'
    · exact hc s' ⟨k, hps.trans hss, hss.symm, Or.inl ⟨h3'.1.trans h3'.2, h⟩⟩ hs'
    · refine hc' s ⟨k, hps, hss, Or.inr ⟨h, ?_⟩⟩ hs
      rcases h3 with h3 | h3 <;> order

end LineSystem
