import ShogiEngine.Rules.Position

/-!
# Answers to a check and pins seen without a man

A test for mate that has not put the man that gives check on the board takes the pins of the side in check
from the position without it. What such a test counts as answers, and where it goes wrong: the man may stand
in the way of a pin, or pin a man itself.

## Main definitions

- `Position.Counted`: the answers that are counted
- `Position.LooksMate`: no answer is counted
- `Position.CutsPin`: a man that only the man on the square unpins can meet the check
- `Position.Deceives`: a counted answer is not legal

## Main results

- `Position.LooksMate.exists_legal_iff`: where no answer is counted, there is one iff a pin is cut
- `Position.looksMate_iff_of_checkmate`: a mate is seen iff no counted answer deceives
-/

namespace Shogi

namespace Men

variable {M : Men} {c : Color} {occ : Square → Prop} {pt : PieceType} {k t x : Square}

/-- The checks of a man and those of the others. -/
theorem checks_iff_of_man (ht : ∀ qt, M qt t ↔ qt = pt) :
    M.Checks c occ k x ↔ x = t ∧ Attacks pt c occ t k ∨ (M.without t).Checks c occ k x := by
  constructor
  · rintro ⟨qt, hman, ha⟩
    by_cases hx : x = t
    · subst hx
      obtain rfl := (ht qt).mp hman
      exact Or.inl ⟨rfl, ha⟩
    · exact Or.inr ⟨qt, ⟨hman, hx⟩, ha⟩
  · rintro (⟨rfl, ha⟩ | ⟨qt, hman, ha⟩)
    · exact ⟨pt, (ht pt).mpr rfl, ha⟩
    · exact ⟨qt, hman.1, ha⟩

theorem attacked_iff_of_man (ht : ∀ qt, M qt t ↔ qt = pt) :
    M.Attacked c occ k ↔ Attacks pt c occ t k ∨ (M.without t).Attacked c occ k := by
  rw [attacked_iff_exists_checks, attacked_iff_exists_checks, exists_congr fun x => checks_iff_of_man ht, exists_or,
    exists_eq_left]

end Men

namespace Position

/-- The man on `s` is pinned to the king on `k`. -/
def Pinned (q : Position) (k s : Square) : Prop := ∃ y, q.Pinner q.turn k s y

/-- The man on `s` would be pinned to the king on `k` if there was no man on `t`. -/
def PinnedWithout (q : Position) (k t s : Square) : Prop :=
  ∃ y, ((q.men (~~~q.turn)).without t).Pins (~~~q.turn) (fun u => q.Occupied u ∧ u ≠ t) k s y

/-- The move goes to where all checks are met. -/
def MeetsChecks (q : Position) (k : Square) (r : Move) : Prop :=
  ∀ x, q.Checker q.turn k x → Resolves k x r.dst

/-- The answers of men other than the king that are counted, with the pins seen without the man on `t`. -/
structure Counted (q : Position) (k t : Square) (r : Move) : Prop where
  allowed : q.Allowed r
  other : r.src ≠ some k
  meets : q.MeetsChecks k r
  pins : ∀ s, r.src = some s → q.PinnedWithout k t s → OnLine s k r.dst

/-- The side to move is in check, its king cannot go away, and no answer of another man is counted. -/
structure LooksMate (q : Position) (k t : Square) : Prop where
  check : q.InCheck q.turn
  king : ∀ r, q.Allowed r → r.src = some k → (q.play r).InCheck q.turn
  others : ∀ r, ¬q.Counted k t r

/-- A man that is not pinned, but would be without the man on `t`, can meet the checks off the line of the
pin. -/
def CutsPin (q : Position) (k t : Square) : Prop := ∃ r s, q.Allowed r ∧ r.src = some s ∧ s ≠ k ∧
  q.MeetsChecks k r ∧ q.PinnedWithout k t s ∧ ¬OnLine s k r.dst ∧ ¬q.Pinned k s

/-- A man that only the man on `t` pins would meet the checks off the line of the pin, or a pawn that is dropped
to meet them mates. -/
def Deceives (q : Position) (k t : Square) : Prop :=
  (∃ r s, q.Allowed r ∧ r.src = some s ∧ s ≠ k ∧ q.MeetsChecks k r ∧ q.Pinned k s ∧ ¬OnLine s k r.dst ∧
    ¬q.PinnedWithout k t s) ∨
  ∃ u, q.Allowed (.drop .pawn u) ∧ q.MeetsChecks k (.drop .pawn u) ∧ (q.play (.drop .pawn u)).Checkmate

section Answers

variable {q : Position} {k l s t : Square} {r : Move}

/-- A man other than the king moves safely iff it meets the checks and keeps to the line of its pin. -/
theorem safe_src_iff (hk : q.KingAt q.turn k) (ha : q.Allowed r) (hs : r.src = some s) (hsk : s ≠ k) :
    ¬(q.play r).InCheck q.turn ↔ q.MeetsChecks k r ∧ (q.Pinned k s → OnLine s k r.dst) := by
  obtain ⟨pt, hm⟩ := ha.moves hs
  have hpt : pt ≠ .king := by
    rintro rfl
    exact hsk ((hk s).mp hm.goes.man)
  exact safe_move_iff hk hpt hm

/-- A drop is safe iff it meets the checks. -/
theorem safe_iff_of_src_none (hk : q.KingAt q.turn k) (ha : q.Allowed r) (hs : r.src = none) :
    ¬(q.play r).InCheck q.turn ↔ q.MeetsChecks k r := by
  cases ha with
  | normal => cases hs
  | promotion => cases hs
  | @drop pt u able held empty stay single =>
    rw [safe_drop_iff hk empty able]
    refine forall_congr' fun x => imp_congr_right fun hx => (or_iff_right ?_).symm
    -- the checker stands on an occupied square
    rintro rfl
    obtain ⟨xt, hman, -⟩ := hx
    exact occupied_of_men hman empty

theorem not_dropsPawnOnKing_of_src (hs : r.src = some s) : ¬q.DropsPawnOnKing r := by
  rintro ⟨u, l, rfl, -, -⟩
  cases hs

theorem legal_of_src (ha : q.Allowed r) (hs : r.src = some s) (hsafe : ¬(q.play r).InCheck q.turn) : q.Legal r :=
  legal_iff_answer.mpr ⟨ha, hsafe, fun h => absurd h (not_dropsPawnOnKing_of_src hs)⟩

/-- Where no answer is counted, there is a legal one iff the man on `t` cuts a pin. -/
theorem LooksMate.exists_legal_iff (hk : q.KingAt q.turn k) (h : q.LooksMate k t) :
    (∃ r, q.Legal r) ↔ q.CutsPin k t := by
  constructor
  · rintro ⟨r, hr⟩
    have ha := hr.allowed
    have hsafe := hr.not_inCheck
    have hother : r.src ≠ some k := fun hsrc => hsafe (h.king r ha hsrc)
    cases hsrc : r.src with
    | none =>
      have hmeets := (safe_iff_of_src_none hk ha hsrc).mp hsafe
      exact absurd ⟨ha, hother, hmeets, fun s hs => nomatch hsrc.symm.trans hs⟩ (h.others r)
    | some s =>
      have hsk : s ≠ k := fun e => hother (hsrc.trans (congrArg some e))
      obtain ⟨hmeets, hpin⟩ := (safe_src_iff hk ha hsrc hsk).mp hsafe
      -- the answer is not counted, which can only be because of a pin
      have hcut : ¬(q.PinnedWithout k t s → OnLine s k r.dst) := fun hpins =>
        h.others r ⟨ha, hother, hmeets, fun s' hs' => Option.some.inj (hsrc.symm.trans hs') ▸ hpins⟩
      obtain ⟨hwithout, hoff⟩ := Classical.not_imp.mp hcut
      exact ⟨r, s, ha, hsrc, hsk, hmeets, hwithout, hoff, fun hpinned => hoff (hpin hpinned)⟩
  · rintro ⟨r, s, ha, hsrc, hsk, hmeets, -, -, hfree⟩
    exact ⟨r, legal_of_src ha hsrc ((safe_src_iff hk ha hsrc hsk).mpr ⟨hmeets, fun h => absurd h hfree⟩)⟩

/-- A counted answer that is not legal deceives. -/
theorem Counted.deceives (hk : q.KingAt q.turn k) (hl : q.KingAt (~~~q.turn) l) (hsafe : ¬q.InCheck (~~~q.turn))
    (h : q.Counted k t r) (hno : ¬q.Legal r) : q.Deceives k t := by
  cases hsrc : r.src with
  | none =>
    have hking := (safe_iff_of_src_none hk h.allowed hsrc).mpr h.meets
    rw [legal_iff hl hsafe, not_and, not_and, not_not] at hno
    obtain ⟨⟨u, rfl⟩, hmate⟩ := hno h.allowed hking
    exact Or.inr ⟨u, h.allowed, h.meets, hmate⟩
  | some s =>
    have hsk : s ≠ k := fun e => h.other (hsrc.trans (congrArg some e))
    have hunsafe : ¬(q.MeetsChecks k r ∧ (q.Pinned k s → OnLine s k r.dst)) := fun hfine =>
      hno (legal_of_src h.allowed hsrc ((safe_src_iff hk h.allowed hsrc hsk).mpr hfine))
    obtain ⟨hpinned, hoff⟩ := Classical.not_imp.mp fun hpin => hunsafe ⟨h.meets, hpin⟩
    exact Or.inl ⟨r, s, h.allowed, hsrc, hsk, h.meets, hpinned, hoff, fun hw => hoff (h.pins s hsrc hw)⟩

/-- What deceives is counted. -/
theorem Deceives.exists_counted (h : q.Deceives k t) : ∃ r, q.Counted k t r := by
  rcases h with ⟨r, s, ha, hsrc, hsk, hmeets, -, -, hfree⟩ | ⟨u, ha, hmeets, -⟩
  · refine ⟨r, ha, fun e => hsk (Option.some.inj (hsrc.symm.trans e)), hmeets, fun s' hs' hw => ?_⟩
    obtain rfl := Option.some.inj (hsrc.symm.trans hs')
    exact absurd hw hfree
  · exact ⟨_, ha, nofun, hmeets, nofun⟩

/-- A mate is seen iff no counted answer deceives. -/
theorem looksMate_iff_of_checkmate (hk : q.KingAt q.turn k) (hl : q.KingAt (~~~q.turn) l)
    (hsafe : ¬q.InCheck (~~~q.turn)) (hmate : q.Checkmate) : q.LooksMate k t ↔ ¬q.Deceives k t := by
  constructor
  · intro h hdeceives
    obtain ⟨r, hr⟩ := hdeceives.exists_counted
    exact h.others r hr
  · intro hno
    refine ⟨hmate.1, fun r ha hsrc => ?_, fun r hr => hno (hr.deceives hk hl hsafe (hmate.2 r))⟩
    by_contra hking
    exact hmate.2 r (legal_of_src ha hsrc hking)

end Answers

end Position

end Shogi
