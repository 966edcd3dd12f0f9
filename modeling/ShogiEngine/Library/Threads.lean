import Mathlib.Algebra.Order.BigOperators.Group.Finset

/-!
# Interleaved threads

Threads with states of their own over a shared memory, one atomic step of one thread at a time.

## Main definitions

- `Threads`: what a single step of a thread may do
- `Threads.Run`: the interleavings whose steps all meet a condition
- `Threads.Watch`: the interleavings of the threads with the reads of a reader

## Main results

- `Threads.Run.invariant`: an invariant of the whole configuration
- `Threads.Reach.conserved`: what the memory holds is the sum of what the threads have put in
- `Threads.Reach.le_sum`: the memory holds no more than the sum of what some threads have put in
- `Threads.Run.thread_invariant`: an invariant of the memory and one of each thread, where the other
  threads do not interfere
- `Threads.Watch.invariant`: what a reader relies on
-/

universe u v w

/-- What one step of thread `i` may make of the memory and of the thread's own state. -/
structure Threads (ι : Type u) (σ : Type v) (τ : Type w) where
  act : ι → σ → τ → σ → τ → Prop

namespace Threads

/-- The memory and the states of all threads. -/
@[ext]
structure Config (ι : Type u) (σ : Type v) (τ : Type w) where
  shared : σ
  own : ι → τ

variable {ι : Type u} {σ : Type v} {τ : Type w} [DecidableEq ι]

/-- The memory and the state of one thread changed. -/
def Config.set (c : Config ι σ τ) (i : ι) (s : σ) (t : τ) : Config ι σ τ :=
  ⟨s, Function.update c.own i t⟩

section Set

variable {c : Config ι σ τ} {i j : ι} {s : σ} {t : τ}

@[simp] theorem Config.shared_set : (c.set i s t).shared = s := rfl

@[simp] theorem Config.own_set_self : (c.set i s t).own i = t := Function.update_self ..

theorem Config.own_set_of_ne (h : j ≠ i) : (c.set i s t).own j = c.own j :=
  Function.update_of_ne h ..

end Set

/-- A step of thread `i`. -/
def Step (T : Threads ι σ τ) (i : ι) (c c' : Config ι σ τ) : Prop :=
  ∃ s t, T.act i c.shared (c.own i) s t ∧ c' = c.set i s t

/-- A run from `c₀` in which every step meets a condition on its thread and on the configuration
before it. -/
inductive Run (T : Threads ι σ τ) (ok : ι → Config ι σ τ → Prop) (c₀ : Config ι σ τ) :
    Config ι σ τ → Prop
  | start : Run T ok c₀ c₀
  | step {c c' : Config ι σ τ} {i : ι} (run : Run T ok c₀ c) (met : ok i c) (step : T.Step i c c') :
      Run T ok c₀ c'

/-- Every interleaving. -/
abbrev Reach (T : Threads ι σ τ) (c₀ c : Config ι σ τ) : Prop := T.Run (fun _ _ => True) c₀ c

variable {T : Threads ι σ τ} {ok : ι → Config ι σ τ → Prop} {c₀ c : Config ι σ τ}

/-- An invariant of the configuration. -/
theorem Run.invariant {I : Config ι σ τ → Prop} (hstart : I c₀)
    (hstep : ∀ i c c', I c → ok i c → T.Step i c c' → I c') (h : T.Run ok c₀ c) : I c := by
  induction h with
  | start => exact hstart
  | step _ met step ih => exact hstep _ _ _ ih met step

/-- An invariant whose steps may use what is known of all reachable configurations. -/
theorem Reach.invariant {I : Config ι σ τ → Prop} (hstart : I c₀)
    (hstep : ∀ i c c', T.Reach c₀ c → I c → T.Step i c c' → I c') (h : T.Reach c₀ c) : I c := by
  induction h with
  | start => exact hstart
  | step run _ step ih => exact hstep _ _ _ run ih step

/-- If no step changes the difference between an amount in the memory and one in the thread that makes
the step, the memory holds the sum of what the threads have. -/
theorem Reach.conserved [Fintype ι] {A : Type*} [AddCommGroup A] {f : σ → A} {g : τ → A}
    (hstart : f c₀.shared = ∑ i, g (c₀.own i))
    (hstep : ∀ i c s t, T.Reach c₀ c → T.act i c.shared (c.own i) s t →
      f s - g t = f c.shared - g (c.own i)) (h : T.Reach c₀ c) :
    f c.shared = ∑ i, g (c.own i) := by
  refine h.invariant (I := fun c => f c.shared = ∑ i, g (c.own i)) hstart ?_
  rintro i c c' hreach hc ⟨s, t, hact, rfl⟩
  have hdiff := hstep i c s t hreach hact
  have hrest : ∑ j ∈ Finset.univ.erase i, g ((c.set i s t).own j) =
      ∑ j ∈ Finset.univ.erase i, g (c.own j) := by
    refine Finset.sum_congr rfl fun j hj => ?_
    rw [Config.own_set_of_ne (Finset.ne_of_mem_erase hj)]
  rw [← Finset.add_sum_erase _ _ (Finset.mem_univ i)] at hc ⊢
  rw [hrest, Config.own_set_self, Config.shared_set]
  rw [hc, add_sub_cancel_left] at hdiff
  exact sub_eq_iff_eq_add'.mp hdiff

/-- Some of the threads, `e k`, put in what the memory holds: a step of one of them raises the amount in the memory
by no more than that in the thread, or leaves nothing in the memory; the other threads do not raise it. -/
theorem Reach.le_sum {κ : Type*} [Fintype κ] {e : κ → ι} (he : Function.Injective e) {f : σ → ℤ} {g : τ → ℤ}
    (hstart : f c₀.shared ≤ ∑ k, g (c₀.own (e k)))
    (hown : ∀ k s t s' t', T.act (e k) s t s' t' → f s' - g t' ≤ f s - g t ∨ f s' ≤ 0 ∧ ∀ x, 0 ≤ g x)
    (hother : ∀ i s t s' t', (∀ k, e k ≠ i) → T.act i s t s' t' → f s' ≤ f s)
    (h : T.Reach c₀ c) : f c.shared ≤ ∑ k, g (c.own (e k)) := by
  classical
  refine h.invariant (I := fun c => f c.shared ≤ ∑ k, g (c.own (e k))) hstart ?_
  rintro i c c' - hc ⟨s, t, hact, rfl⟩
  by_cases hi : ∃ k, e k = i
  · obtain ⟨k, rfl⟩ := hi
    obtain hle | ⟨hnone, hnonneg⟩ := hown k _ _ _ _ hact
    · have hrest : ∑ j ∈ Finset.univ.erase k, g ((c.set (e k) s t).own (e j)) =
          ∑ j ∈ Finset.univ.erase k, g (c.own (e j)) := by
        refine Finset.sum_congr rfl fun j hj => ?_
        rw [Config.own_set_of_ne (he.ne (Finset.ne_of_mem_erase hj))]
      rw [← Finset.add_sum_erase _ _ (Finset.mem_univ k)] at hc ⊢
      rw [hrest, Config.own_set_self, Config.shared_set]
      omega
    · exact hnone.trans (Finset.sum_nonneg fun j _ => hnonneg _)
  · have hne : ∀ k, e k ≠ i := fun k hk => hi ⟨k, hk⟩
    refine (hother i _ _ _ _ hne hact).trans (hc.trans_eq (Finset.sum_congr rfl fun k _ => ?_))
    rw [Config.own_set_of_ne (hne k)]

/-- Thread `i` makes the step that it can make. -/
theorem Reach.act {i : ι} {s s' : σ} {t t' : τ} (h : T.Reach c₀ c) (hs : c.shared = s)
    (ht : c.own i = t) (hact : T.act i s t s' t') :
    ∃ c', T.Reach c₀ c' ∧ c'.shared = s' ∧ c'.own i = t' := by
  subst hs ht
  exact ⟨c.set i s' t', Run.step h trivial ⟨s', t', hact, rfl⟩, rfl, Config.own_set_self⟩

theorem Reach.step_of_act {i : ι} {s : σ} {t : τ} (h : T.Reach c₀ c) (hact : T.act i c.shared (c.own i) s t) :
    T.Reach c₀ (c.set i s t) :=
  Run.step h trivial ⟨s, t, hact, rfl⟩

/-- Thread `i` goes on. -/
theorem Reach.go_on {i : ι} {s s' : σ} {t t' : τ} (h : T.Reach c₀ (c.set i s t)) (hact : T.act i s t s' t') :
    T.Reach c₀ (c.set i s' t') := by
  have hset : (c.set i s t).set i s' t' = c.set i s' t' := by
    rw [Config.set, Config.set, Config.set, Function.update_idem]
  rw [← hset]
  refine h.step_of_act ?_
  rw [Config.shared_set, Config.own_set_self]
  exact hact

/-- An invariant `I` of the memory and one, `J`, of each thread: a step keeps `I` and the `J` of its
own thread, and does not interfere with the `J` of another. -/
theorem Run.thread_invariant {I : σ → Prop} {J : ι → σ → τ → Prop}
    (hstart : I c₀.shared ∧ ∀ i, J i c₀.shared (c₀.own i))
    (hown : ∀ i s t s' t', I s → J i s t → T.act i s t s' t' → I s' ∧ J i s' t')
    (hother : ∀ i j s t s' t' x, I s → J i s t → J j s x → j ≠ i → T.act i s t s' t' → J j s' x)
    (h : T.Run ok c₀ c) : I c.shared ∧ ∀ i, J i c.shared (c.own i) := by
  refine h.invariant (I := fun c => I c.shared ∧ ∀ i, J i c.shared (c.own i)) hstart ?_
  intro i c c' hI _ hstep
  obtain ⟨s, t, hact, rfl⟩ := hstep
  obtain ⟨hs, ht⟩ := hown i _ _ _ _ hI.1 (hI.2 i) hact
  refine ⟨hs, fun j => ?_⟩
  by_cases hj : j = i
  · subst hj
    rw [Config.shared_set, Config.own_set_self]
    exact ht
  · rw [Config.shared_set, Config.own_set_of_ne hj]
    exact hother i j _ _ _ _ _ hI.1 (hI.2 i) (hI.2 j) hj hact

/-! ## A reader -/

/-- A reader begins at some time, and its reads come between the steps of the threads. -/
inductive Watch {ρ : Type*} (T : Threads ι σ τ) (read : σ → ρ → ρ) (c₀ : Config ι σ τ) (r₀ : ρ) :
    Config ι σ τ → ρ → Prop
  | start {c : Config ι σ τ} (run : T.Reach c₀ c) : Watch T read c₀ r₀ c r₀
  | act {c c' : Config ι σ τ} {i : ι} {r : ρ} (watch : Watch T read c₀ r₀ c r) (step : T.Step i c c') :
      Watch T read c₀ r₀ c' r
  | read {c : Config ι σ τ} {r : ρ} (watch : Watch T read c₀ r₀ c r) : Watch T read c₀ r₀ c (read c.shared r)

section Watch

variable {ρ : Type*} {read : σ → ρ → ρ} {r₀ r : ρ}

/-- The threads do not notice the reader. -/
theorem Watch.reach (h : T.Watch read c₀ r₀ c r) : T.Reach c₀ c := by
  induction h with
  | start run => exact run
  | act _ step ih => exact Run.step ih trivial step
  | read _ ih => exact ih

/-- Reads without a step between them. -/
theorem Watch.reads {r' : ρ} (h : T.Watch read c₀ r₀ c r)
    (hreads : Relation.ReflTransGen (fun r r' => read c.shared r = r') r r') : T.Watch read c₀ r₀ c r' := by
  induction hreads with
  | refl => exact h
  | tail _ hread ih => exact hread ▸ ih.read

/-- What a reader relies on: it holds at the beginning, the reads keep it, and the threads do not interfere. -/
theorem Watch.invariant {J : σ → ρ → Prop} (hstart : ∀ c, T.Reach c₀ c → J c.shared r₀)
    (hread : ∀ c r, T.Reach c₀ c → J c.shared r → J c.shared (read c.shared r))
    (hact : ∀ i c c' r, T.Reach c₀ c → J c.shared r → T.Step i c c' → J c'.shared r)
    (h : T.Watch read c₀ r₀ c r) : J c.shared r := by
  induction h with
  | start run => exact hstart _ run
  | act watch step ih => exact hact _ _ _ _ watch.reach ih step
  | read watch ih => exact hread _ _ watch.reach ih

end Watch

end Threads
