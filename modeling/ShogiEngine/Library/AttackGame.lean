/-!
# Games of attack

Two sides move in turn. One side, the attacker, has to keep attacking and wants to win; the other
side replies. After each move the play may be over, and then it is won for the attacker or not.

## Main definitions

- `AttackGame`: the moves of the two sides and how the play stands after them
- `AttackGame.WinsWithin`: the attacker, to move, wins within a number of moves
- `AttackGame.Wins`: the attacker, to move, wins
- `AttackGame.Simulates`: the attacker of one game can play as in another

## Main results

- `AttackGame.WinsWithin.wins`: a bounded win is a win
- `AttackGame.Simulates.winsWithin`: a win carries over to a game that simulates
-/

universe u

/-- The moves of the attacker and of the other side, and when play is won for the attacker or goes
on after a move of either. A play that is neither won nor goes on is not won. -/
structure AttackGame (σ : Type u) where
  attack : σ → σ → Prop
  reply : σ → σ → Prop
  attackWins : σ → Prop
  attackOpen : σ → Prop
  replyLoses : σ → Prop
  replyOpen : σ → Prop

namespace AttackGame

variable {σ : Type u} (G : AttackGame σ)

/-- The attacker, to move, wins within `n` moves of both sides together. -/
inductive WinsWithin : Nat → σ → Prop
  | win {n : Nat} {s t : σ} (attack : G.attack s t) (wins : G.attackWins t) : WinsWithin (n + 1) s
  | go {n : Nat} {s t : σ} (attack : G.attack s t) (goes : G.attackOpen t)
      (replies : ∀ u, G.reply t u → ¬ G.replyLoses u → G.replyOpen u)
      (wins : ∀ u, G.reply t u → ¬ G.replyLoses u → WinsWithin n u) : WinsWithin (n + 2) s

/-- The attacker, to move, wins. -/
inductive Wins : σ → Prop
  | win {s t : σ} (attack : G.attack s t) (wins : G.attackWins t) : Wins s
  | go {s t : σ} (attack : G.attack s t) (goes : G.attackOpen t)
      (replies : ∀ u, G.reply t u → ¬ G.replyLoses u → G.replyOpen u)
      (wins : ∀ u, G.reply t u → ¬ G.replyLoses u → Wins u) : Wins s

variable {G} {s t : σ} {n k : Nat}

/-- After the attack that led to `t`, the other side is lost. -/
def Refutes (G : AttackGame σ) (W : σ → Prop) (t : σ) : Prop :=
  G.attackWins t ∨ G.attackOpen t ∧ ∀ u, G.reply t u → G.replyLoses u ∨ G.replyOpen u ∧ W u

theorem Refutes.mono {W V : σ → Prop} (hWV : ∀ u, W u → V u) (h : G.Refutes W t) :
    G.Refutes V t := by
  obtain hwins | ⟨hopen, hreplies⟩ := h
  · exact Or.inl hwins
  · exact Or.inr ⟨hopen, fun u hu => (hreplies u hu).imp_right fun h => ⟨h.1, hWV u h.2⟩⟩

/-- The same within a number of moves, if the last reply is counted. -/
theorem winsWithin_of_refutes (attack : G.attack s t) (h : G.Refutes (G.WinsWithin n) t) :
    G.WinsWithin (n + 2) s := by
  obtain hwins | ⟨hopen, hreplies⟩ := h
  · exact .win attack hwins
  · have hleft : ∀ u, G.reply t u → ¬ G.replyLoses u → G.replyOpen u ∧ G.WinsWithin n u :=
      fun u hu hl => (hreplies u hu).resolve_left hl
    exact .go attack hopen (fun u hu hl => (hleft u hu hl).1) fun u hu hl => (hleft u hu hl).2

theorem WinsWithin.mono (hnk : n ≤ k) (h : G.WinsWithin n s) : G.WinsWithin k s := by
  induction h generalizing k with
  | win attack wins =>
    obtain ⟨j, rfl⟩ := Nat.exists_eq_add_of_le hnk
    rw [show ∀ i, i + 1 + j = i + j + 1 from fun i => by omega]
    exact .win attack wins
  | go attack goes replies _ ih =>
    obtain ⟨j, rfl⟩ := Nat.exists_eq_add_of_le hnk
    rw [show ∀ i, i + 2 + j = i + j + 2 from fun i => by omega]
    exact .go attack goes replies fun u hu hl => ih u hu hl (Nat.le_add_right _ _)

/-- A bounded win is a win. -/
theorem WinsWithin.wins (h : G.WinsWithin n s) : G.Wins s := by
  induction h with
  | win attack wins => exact .win attack wins
  | go attack goes replies _ ih => exact .go attack goes replies ih

/-- The attacker wins iff some attack leaves the other side lost. -/
theorem wins_iff : G.Wins s ↔ ∃ t, G.attack s t ∧ G.Refutes G.Wins t := by
  constructor
  · intro h
    cases h with
    | win attack wins => exact ⟨_, attack, Or.inl wins⟩
    | @go _ t attack goes replies wins =>
      refine ⟨t, attack, Or.inr ⟨goes, fun u hu => ?_⟩⟩
      by_cases hl : G.replyLoses u
      · exact Or.inl hl
      · exact Or.inr ⟨replies u hu hl, wins u hu hl⟩
  · rintro ⟨t, attack, hwins | ⟨goes, hreplies⟩⟩
    · exact .win attack hwins
    · have hleft : ∀ u, G.reply t u → ¬ G.replyLoses u → G.replyOpen u ∧ G.Wins u :=
        fun u hu hl => (hreplies u hu).resolve_left hl
      exact .go attack goes (fun u hu hl => (hleft u hu hl).1) fun u hu hl => (hleft u hu hl).2

/-! ## Simulation -/

variable {τ : Type u} {H : AttackGame τ}

/-- The attacker of `H` can answer each attack of `G` with one of his own, and each reply to it is one
that `G` knows. The relations are about states with the attacker and with the other side to move. -/
structure Simulates (G : AttackGame σ) (H : AttackGame τ) (R R' : σ → τ → Prop) : Prop where
  attack : ∀ {s t s'}, R s s' → G.attack s t → ∃ t', H.attack s' t' ∧ R' t t'
  reply : ∀ {t t' u'}, R' t t' → H.reply t' u' → ∃ u, G.reply t u ∧ R u u'
  attackWins : ∀ {t t'}, R' t t' → G.attackWins t → H.attackWins t'
  attackOpen : ∀ {t t'}, R' t t' → G.attackOpen t → H.attackOpen t'
  replyLoses : ∀ {u u'}, R u u' → G.replyLoses u → H.replyLoses u'
  replyOpen : ∀ {u u'}, R u u' → G.replyOpen u → H.replyOpen u'

theorem Simulates.winsWithin {R R' : σ → τ → Prop} (h : Simulates G H R R') {s' : τ}
    (hs : R s s') (hwin : G.WinsWithin n s) : H.WinsWithin n s' := by
  induction hwin generalizing s' with
  | win attack wins =>
    obtain ⟨t', attack', ht⟩ := h.attack hs attack
    exact .win attack' (h.attackWins ht wins)
  | go attack goes replies _ ih =>
    obtain ⟨t', attack', ht⟩ := h.attack hs attack
    refine .go attack' (h.attackOpen ht goes) (fun u' hu' hl => ?_) (fun u' hu' hl => ?_)
    · obtain ⟨u, hu, hR⟩ := h.reply ht hu'
      exact h.replyOpen hR (replies u hu (mt (h.replyLoses hR) hl))
    · obtain ⟨u, hu, hR⟩ := h.reply ht hu'
      exact ih u hu (mt (h.replyLoses hR) hl) hR

theorem Simulates.wins {R R' : σ → τ → Prop} (h : Simulates G H R R') {s' : τ} (hs : R s s')
    (hwin : G.Wins s) : H.Wins s' := by
  induction hwin generalizing s' with
  | win attack wins =>
    obtain ⟨t', attack', ht⟩ := h.attack hs attack
    exact .win attack' (h.attackWins ht wins)
  | go attack goes replies _ ih =>
    obtain ⟨t', attack', ht⟩ := h.attack hs attack
    refine .go attack' (h.attackOpen ht goes) (fun u' hu' hl => ?_) (fun u' hu' hl => ?_)
    · obtain ⟨u, hu, hR⟩ := h.reply ht hu'
      exact h.replyOpen hR (replies u hu (mt (h.replyLoses hR) hl))
    · obtain ⟨u, hu, hR⟩ := h.reply ht hu'
      exact ih u hu (mt (h.replyLoses hR) hl) hR

end AttackGame
