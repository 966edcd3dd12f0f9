/-!
# Monitored computations

Computations that may fail, on a state that keeps a record of what they do. As long as the record is
clear the state is good, whatever happens later.

## Main definitions

- `Monitor`: when a record is clear, a state good and a failure allowed
- `Monitor.Upholds`: a computation keeps a clear record honest and a state with one good

## Main results

- `Monitor.Upholds.bind`, `Monitor.Upholds.ite`: the rules for sequences and branches
- `Monitor.Upholds.modify`, `Monitor.upholds_get`: the rules for the state
-/

universe u

/-- What is watched of the states: the record is clear, the state is good; and the failures that may
end a computation. -/
structure Monitor (ε σ : Type u) where
  clear : σ → Prop
  good : σ → Prop
  allowed : ε → Prop

namespace Monitor

variable {ε σ α β : Type u} (M : Monitor ε σ)

/-- If the record is clear afterwards it was clear before; and then, where `pre` holds, a good state
stays good, the computation fails only in allowed ways, and its result satisfies `post`. -/
def Upholds (pre : Prop) (m : ExceptT ε (StateM σ) α) (post : α → Prop) : Prop :=
  ∀ s, M.clear (m s).2 → M.clear s ∧ (pre → M.good s → M.good (m s).2 ∧
    (∀ a, (m s).1 = .ok a → post a) ∧ ∀ e, (m s).1 = .error e → M.allowed e)

variable {M} {pre pre' : Prop} {m : ExceptT ε (StateM σ) α} {f : α → ExceptT ε (StateM σ) β}
  {post : α → Prop} {post' : β → Prop}

theorem upholds_pure {a : α} (h : pre → post a) : M.Upholds pre (pure a) post := by
  intro s hclear
  refine ⟨hclear, fun hpre hgood => ⟨hgood, fun b hb => ?_, fun e he => ?_⟩⟩
  · cases hb
    exact h hpre
  · cases he

theorem upholds_throw {e : ε} (h : pre → M.allowed e) : M.Upholds pre (throw e) post := by
  intro s hclear
  refine ⟨hclear, fun hpre hgood => ⟨hgood, fun b hb => ?_, fun e' he => ?_⟩⟩
  · cases hb
  · cases he
    exact h hpre

/-- One computation after the other. -/
theorem Upholds.bind (hm : M.Upholds pre m post)
    (hf : ∀ a, M.Upholds (pre ∧ post a) (f a) post') : M.Upholds pre (m >>= f) post' := by
  intro s hclear
  have hrun : (m >>= f) s = ExceptT.bindCont f (m s).1 (m s).2 := rfl
  rw [hrun] at hclear ⊢
  cases hres : (m s).1 with
  | error e =>
    rw [hres] at hclear
    obtain ⟨h1, h2⟩ := hm s hclear
    refine ⟨h1, fun hpre hgood => ?_⟩
    obtain ⟨hgood', -, herror⟩ := h2 hpre hgood
    refine ⟨hgood', ?_, ?_⟩
    · intro b hb
      cases hb
    · intro e' he
      cases he
      exact herror e hres
  | ok a =>
    rw [hres] at hclear
    obtain ⟨h1, h2⟩ := hf a (m s).2 hclear
    obtain ⟨h3, h4⟩ := hm s h1
    refine ⟨h3, fun hpre hgood => ?_⟩
    obtain ⟨hgood', hpost, -⟩ := h4 hpre hgood
    exact h2 ⟨hpre, hpost a hres⟩ hgood'

/-- A weaker assumption and a stronger result. -/
theorem Upholds.weaken {post' : α → Prop} (h : M.Upholds pre m post) (hpre : pre' → pre)
    (hpost : ∀ a, pre' → post a → post' a) : M.Upholds pre' m post' := by
  intro s hclear
  obtain ⟨h1, h2⟩ := h s hclear
  refine ⟨h1, fun hp hgood => ?_⟩
  obtain ⟨hgood', hres, herror⟩ := h2 (hpre hp) hgood
  exact ⟨hgood', fun a ha => hpost a hp (hres a ha), herror⟩

theorem Upholds.trivial (h : M.Upholds pre m post) (hpre : pre' → pre) :
    M.Upholds pre' m fun _ => True := h.weaken hpre fun _ _ _ => True.intro

/-- A branch. -/
theorem Upholds.ite {c : Prop} [Decidable c] {m' : ExceptT ε (StateM σ) α}
    (h : M.Upholds (pre ∧ c) m post) (h' : M.Upholds (pre ∧ ¬ c) m' post) :
    M.Upholds pre (if c then m else m') post := by
  by_cases hc : c
  · rw [if_pos hc]
    exact h.weaken (fun hp => ⟨hp, hc⟩) fun _ _ h => h
  · rw [if_neg hc]
    exact h'.weaken (fun hp => ⟨hp, hc⟩) fun _ _ h => h

/-- Looking at the state. -/
theorem upholds_get : M.Upholds pre get fun s => M.good s := by
  intro s hclear
  refine ⟨hclear, fun _ hgood => ⟨hgood, fun a ha => ?_, fun e he => ?_⟩⟩
  · cases ha
    exact hgood
  · cases he

/-- A change of the state, with a result. -/
theorem upholds_modifyGet {g : σ → α × σ} (hclear : ∀ s, M.clear (g s).2 → M.clear s)
    (hgood : ∀ s, pre → M.clear (g s).2 → M.good s → M.good (g s).2 ∧ post (g s).1) :
    M.Upholds pre (modifyGet g) post := by
  intro s hc
  refine ⟨hclear s hc, fun hpre hg => ?_⟩
  obtain ⟨h1, h2⟩ := hgood s hpre hc hg
  refine ⟨h1, fun a ha => ?_, fun e he => ?_⟩
  · cases ha
    exact h2
  · cases he

/-- A change of the state. -/
theorem upholds_modify {g : σ → σ} (hclear : ∀ s, M.clear (g s) → M.clear s)
    (hgood : ∀ s, pre → M.clear (g s) → M.good s → M.good (g s)) :
    M.Upholds pre (modify g : ExceptT ε (StateM σ) PUnit) fun _ => True :=
  upholds_modifyGet hclear fun s hpre hc hg => ⟨hgood s hpre hc hg, True.intro⟩

end Monitor
