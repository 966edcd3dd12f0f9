/-!
# Nested do and undo

A system whose operations return what it takes to reverse them, run with properly nested
calls: an undo always takes back the last operation that is not yet taken back. If each
single operation is reversed exactly, a run is never anywhere but on the line of the
operations still on its stack.

## Main definitions

- `UndoSystem`: operations with their undo records
- `UndoSystem.Run`: properly nested runs
- `UndoSystem.Line`: a sequence of operations without any undo

## Main results

- `UndoSystem.Run.line`: what a run reaches, the operations on its stack reach alone
- `UndoSystem.Run.eq_start`: a run with an empty stack is back at its start
-/

universe u v w

/-- Operations `μ` on states `σ`; `act` returns an undo record that `undo` takes. -/
structure UndoSystem (σ : Type u) (μ : Type v) (υ : Type w) where
  ok : σ → μ → Prop
  act : σ → μ → σ × υ
  undo : σ → μ → υ → σ

namespace UndoSystem

variable {σ : Type u} {μ : Type v} {υ : Type w} (S : UndoSystem σ μ υ)

/-- A properly nested run from `s`: the state it reaches and the operations not yet undone,
the last one first. -/
inductive Run (s : σ) : σ → List (μ × υ) → Prop
  | start : Run s s []
  | act {t : σ} {stack : List (μ × υ)} {m : μ} (run : Run s t stack) (ok : S.ok t m) :
      Run s (S.act t m).1 ((m, (S.act t m).2) :: stack)
  | undo {t : σ} {stack : List (μ × υ)} {m : μ} {r : υ} (run : Run s t ((m, r) :: stack)) :
      Run s (S.undo t m r) stack

/-- The states reached by operations alone. -/
inductive Line (s : σ) : σ → List (μ × υ) → Prop
  | start : Line s s []
  | act {t : σ} {stack : List (μ × υ)} {m : μ} (line : Line s t stack) (ok : S.ok t m) :
      Line s (S.act t m).1 ((m, (S.act t m).2) :: stack)

variable {S}

/-- A line of a stricter system is a line of a laxer one with the same operations. -/
theorem Line.mono {T : UndoSystem σ μ υ} {I : σ → Prop} (hact : ∀ t m, S.act t m = T.act t m)
    (hok : ∀ t m, I t → S.ok t m → T.ok t m ∧ I (S.act t m).1) {s t : σ} {stack : List (μ × υ)}
    (hs : I s) (h : S.Line s t stack) : T.Line s t stack ∧ I t := by
  induction h with
  | start => exact ⟨.start, hs⟩
  | @act t stack m _ ok ih =>
    obtain ⟨hT, hI⟩ := hok t m ih.2 ok
    rw [hact] at hI ⊢
    exact ⟨.act ih.1 hT, hI⟩

/-- An invariant that every operation preserves holds along a line. -/
theorem Line.invariant {I : σ → Prop} (hact : ∀ t m, I t → S.ok t m → I (S.act t m).1) {s t : σ}
    {stack : List (μ × υ)} (hs : I s) (h : S.Line s t stack) : I t := by
  induction h with
  | start => exact hs
  | act _ ok ih => exact hact _ _ ih ok

/-- What a nested run reaches, the operations on its stack reach alone. -/
theorem Run.line {I : σ → Prop} (hact : ∀ t m, I t → S.ok t m → I (S.act t m).1)
    (hundo : ∀ t m, I t → S.ok t m → S.undo (S.act t m).1 m (S.act t m).2 = t) {s t : σ}
    {stack : List (μ × υ)} (hs : I s) (h : S.Run s t stack) : S.Line s t stack := by
  induction h with
  | start => exact .start
  | act _ ok ih => exact .act ih ok
  | undo _ ih =>
    cases ih with
    | act line ok =>
      rw [hundo _ _ (line.invariant hact hs) ok]
      exact line

/-- After the last undo everything is as it was. -/
theorem Run.eq_start {I : σ → Prop} (hact : ∀ t m, I t → S.ok t m → I (S.act t m).1)
    (hundo : ∀ t m, I t → S.ok t m → S.undo (S.act t m).1 m (S.act t m).2 = t) {s t : σ}
    (hs : I s) (h : S.Run s t []) : t = s := by
  cases h.line hact hundo hs
  rfl

/-- An invariant holds in every state of a nested run. -/
theorem Run.invariant {I : σ → Prop} (hact : ∀ t m, I t → S.ok t m → I (S.act t m).1)
    (hundo : ∀ t m, I t → S.ok t m → S.undo (S.act t m).1 m (S.act t m).2 = t) {s t : σ}
    {stack : List (μ × υ)} (hs : I s) (h : S.Run s t stack) : I t :=
  (h.line hact hundo hs).invariant hact hs

end UndoSystem
