import Mathlib.Order.Basic
import Mathlib.Tactic.Choose

/-!
# Negamax values

Two players in turn, three results, and a verdict at some positions. The value of any other position
is the best that one of its moves reaches, seen from the other side.

## Main definitions

- `Negamax`: verdicts and moves
- `Negamax.HasValue`: the value of a position for the player to move

## Main results

- `Negamax.HasValue.unique`: a position has one value at most
- `Negamax.exists_hasValue`: where play comes to an end it has one
- `Negamax.HasValue.draw_of_forall`: no move is better than a draw
-/

universe u v

/-- The result for the player to move. -/
inductive Outcome
  | win
  | loss
  | draw
  deriving DecidableEq, Repr

/-- The same result for the other player. -/
def Outcome.neg : Outcome → Outcome
  | .win => .loss
  | .loss => .win
  | .draw => .draw

@[simp] theorem Outcome.neg_neg (o : Outcome) : o.neg.neg = o := by
  cases o <;> rfl

structure Negamax (P : Type u) (M : Type v) where
  verdict : P → Option Outcome
  moves : P → List M
  play : P → M → P

namespace Negamax

variable {P : Type u} {M : Type v} (G : Negamax P M)

/-- The value of a position: its verdict, or else the best of its moves. In a draw every move has a
value, and none wins. -/
inductive HasValue : P → Outcome → Prop
  | verdict {p : P} {o : Outcome} (verdict : G.verdict p = some o) : HasValue p o
  | win {p : P} {m : M} (goes : G.verdict p = none) (mem : m ∈ G.moves p)
      (loss : HasValue (G.play p m) .loss) : HasValue p .win
  | loss {p : P} (goes : G.verdict p = none)
      (wins : ∀ m ∈ G.moves p, HasValue (G.play p m) .win) : HasValue p .loss
  | draw {p : P} {m : M} {f : M → Outcome} (goes : G.verdict p = none) (mem : m ∈ G.moves p)
      (draw : HasValue (G.play p m) .draw) (value : ∀ m ∈ G.moves p, HasValue (G.play p m) (f m))
      (noLoss : ∀ m ∈ G.moves p, f m ≠ .loss) : HasValue p .draw

variable {G} {p : P} {o o' : Outcome}

/-- A position has at most one value. -/
theorem HasValue.unique (h : G.HasValue p o) (h' : G.HasValue p o') : o = o' := by
  induction h generalizing o' with
  | verdict hv =>
    cases h' with
    | verdict hv' => exact Option.some.inj (hv.symm.trans hv')
    | win goes => exact absurd (hv.symm.trans goes) (by simp)
    | loss goes => exact absurd (hv.symm.trans goes) (by simp)
    | draw goes => exact absurd (hv.symm.trans goes) (by simp)
  | win goes mem _ ih =>
    cases h' with
    | verdict hv' => exact absurd (hv'.symm.trans goes) (by simp)
    | win => rfl
    | loss _ wins => exact absurd (ih (wins _ mem)) (by decide)
    | draw _ _ _ value noLoss => exact absurd (ih (value _ mem)).symm (noLoss _ mem)
  | loss goes _ ih =>
    cases h' with
    | verdict hv' => exact absurd (hv'.symm.trans goes) (by simp)
    | win _ mem hl => exact absurd (ih _ mem hl) (by decide)
    | loss => rfl
    | draw _ mem hd => exact absurd (ih _ mem hd) (by decide)
  | draw goes mem _ _ noLoss ihDraw ih =>
    cases h' with
    | verdict hv' => exact absurd (hv'.symm.trans goes) (by simp)
    | win _ mem' hl => exact absurd (ih _ mem' hl) (noLoss _ mem')
    | loss _ wins => exact absurd (ihDraw (wins _ mem)) (by decide)
    | draw => rfl

/-- Every position from which each line of play ends has a value. -/
theorem exists_hasValue {r : P → Nat}
    (hr : ∀ p m, G.verdict p = none → m ∈ G.moves p → r (G.play p m) < r p) (p : P) :
    ∃ o, G.HasValue p o := by
  induction hn : r p using Nat.strongRecOn generalizing p with
  | ind n ih =>
    cases hv : G.verdict p with
    | some o => exact ⟨o, .verdict hv⟩
    | none =>
      have hchild : ∀ m, ∃ o, m ∈ G.moves p → G.HasValue (G.play p m) o := by
        intro m
        by_cases hm : m ∈ G.moves p
        · obtain ⟨o, ho⟩ := ih _ (hn ▸ hr p m hv hm) _ rfl
          exact ⟨o, fun _ => ho⟩
        · exact ⟨.win, fun h => absurd h hm⟩
      choose f hf using hchild
      by_cases hwin : ∃ m ∈ G.moves p, f m = .loss
      · obtain ⟨m, hm, hfm⟩ := hwin
        exact ⟨.win, .win hv hm (hfm ▸ hf m hm)⟩
      have hnoLoss : ∀ m ∈ G.moves p, f m ≠ .loss := fun m hm hfm => hwin ⟨m, hm, hfm⟩
      by_cases hdraw : ∃ m ∈ G.moves p, f m = .draw
      · obtain ⟨m, hm, hfm⟩ := hdraw
        exact ⟨.draw, .draw hv hm (hfm ▸ hf m hm) hf hnoLoss⟩
      · refine ⟨.loss, .loss hv fun m hm => ?_⟩
        have hfm := hf m hm
        cases hcase : f m with
        | win => exact hcase ▸ hfm
        | loss => exact absurd hcase (hnoLoss m hm)
        | draw => exact absurd ⟨m, hm, hcase⟩ hdraw

/-- One move draws, and every move wins for the opponent or draws. -/
theorem HasValue.draw_of_forall {m : M} (goes : G.verdict p = none) (mem : m ∈ G.moves p)
    (draw : G.HasValue (G.play p m) .draw)
    (rest : ∀ m ∈ G.moves p, G.HasValue (G.play p m) .win ∨ G.HasValue (G.play p m) .draw) :
    G.HasValue p .draw := by
  classical
  refine .draw (f := fun m => if G.HasValue (G.play p m) .win then .win else .draw) goes mem draw
    (fun m hm => ?_) fun m hm => ?_
  · obtain h | h := rest m hm
    · rw [if_pos h]
      exact h
    · by_cases hw : G.HasValue (G.play p m) .win
      · rw [if_pos hw]
        exact hw
      · rw [if_neg hw]
        exact h
  · split <;> decide

end Negamax
