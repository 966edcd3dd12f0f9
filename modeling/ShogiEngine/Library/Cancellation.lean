/-!
# Cancellable computations

Computations that work on a core which they have to put back, and that can be cancelled at
checkpoints. A cancelled computation may return anything, so its caller has to look at the flag
before it looks at the value.

## Main definitions

- `Cancellation`: the core and the flag of a state, and how the rest of it may change
- `Cancellation.Does`: a command that does not touch the flag
- `Cancellation.Yields`: a value, unless cancelled, and a core in any case

## Main results

- `Cancellation.Does.yields`, `Cancellation.Checkpoint.yields`, `Cancellation.Yields.sub`: the
  rules for commands, checkpoints and nested computations
-/

universe v

/-- The core and the flag of a state, and the changes that computations make to the rest. -/
structure Cancellation (S : Type) (β : Type v) where
  core : S → β
  cancelled : S → Bool
  leads : S → S → Prop
  refl : ∀ s, leads s s
  trans : ∀ {s t u}, leads s t → leads t u → leads s u

namespace Cancellation

variable {S α γ : Type} {β : Type v} (C : Cancellation S β)

/-- On the core `b`, the command returns `v`, leaves the core `c` and does not touch the flag. -/
def Does (x : StateM S α) (b : β) (v : α) (c : β) : Prop :=
  ∀ s, C.core s = b → (x s).1 = v ∧ C.core (x s).2 = c ∧ C.cancelled (x s).2 = C.cancelled s ∧
    C.leads s (x s).2

/-- On the core `b`, the computation leaves the core `c`, and returns `v` unless it is cancelled. -/
def Yields (x : StateM S α) (b : β) (v : α) (c : β) : Prop :=
  ∀ s, C.core s = b → C.cancelled s = false → C.core (x s).2 = c ∧
    (C.cancelled (x s).2 = false → (x s).1 = v) ∧ C.leads s (x s).2

/-- A checkpoint leaves the core alone and answers whether the computation is now cancelled. -/
def Checkpoint (x : StateM S Bool) : Prop :=
  ∀ s, C.cancelled s = false → C.core (x s).2 = C.core s ∧ (x s).1 = C.cancelled (x s).2 ∧
    C.leads s (x s).2

/-- A look at the flag. -/
def Looks (x : StateM S Bool) : Prop := ∀ s, x s = (C.cancelled s, s)

variable {C} {x : StateM S α} {f : α → StateM S γ} {b c d : β} {v : α} {w : γ}

theorem Does.yields_self (hx : C.Does x b v c) : C.Yields x b v c := by
  intro s hs hc
  obtain ⟨hv, hcore, -, hleads⟩ := hx s hs
  exact ⟨hcore, fun _ => hv, hleads⟩

theorem yields_pure : C.Yields (pure v) b v b :=
  Does.yields_self fun s hs => ⟨rfl, hs, rfl, C.refl s⟩

/-- A function of the value. -/
theorem Yields.map (hx : C.Yields x b v c) (g : α → γ) :
    C.Yields (x >>= fun r => pure (g r)) b (g v) c := by
  intro s hs hc
  obtain ⟨hcore, hvalue, hleads⟩ := hx s hs hc
  exact ⟨hcore, fun h => congrArg g (hvalue h), hleads⟩

/-- A command, then the rest from where the command leads. -/
theorem Does.yields (hx : C.Does x b v c) (hf : C.Yields (f v) c w d) :
    C.Yields (x >>= f) b w d := by
  intro s hs hc
  obtain ⟨hv, hcore, hflag, hleads⟩ := hx s hs
  have hbind : (x >>= f) s = f v (x s).2 := by
    rw [← hv]
    rfl
  obtain ⟨hcore', hvalue, hleads'⟩ := hf _ hcore (hflag.trans hc)
  rw [hbind]
  exact ⟨hcore', hvalue, C.trans hleads hleads'⟩

/-- At a checkpoint the computation may leave with any value. -/
theorem Checkpoint.yields {stop : StateM S Bool} {g : Bool → StateM S γ} (hstop : C.Checkpoint stop)
    (hcancel : ∀ s, (g true s).2 = s) (hg : C.Yields (g false) b w b) :
    C.Yields (stop >>= g) b w b := by
  intro s hs hc
  obtain ⟨hcore, hanswer, hleads⟩ := hstop s hc
  have hbind : (stop >>= g) s = g (stop s).1 (stop s).2 := rfl
  rw [hbind, hanswer]
  cases hflag : C.cancelled (stop s).2 with
  | true =>
    rw [hcancel]
    refine ⟨hcore.trans hs, fun h => ?_, hleads⟩
    rw [hflag] at h
    cases h
  | false =>
    obtain ⟨hcore', hvalue, hleads'⟩ := hg _ (hcore.trans hs) hflag
    exact ⟨hcore', hvalue, C.trans hleads hleads'⟩

/-- A nested computation, the command that puts the core back, and a look at the flag before the
value is used. -/
theorem Yields.sub {undo : StateM S Unit} {look : StateM S Bool} {g : α → Bool → StateM S γ}
    (hx : C.Yields x b v c) (hundo : C.Does undo c () d) (hlook : C.Looks look)
    (hcancel : ∀ r s, (g r true s).2 = s) (hg : C.Yields (g v false) d w d) :
    C.Yields (x >>= fun r => undo >>= fun _ => look >>= g r) b w d := by
  intro s hs hc
  obtain ⟨hcore, hvalue, hleads⟩ := hx s hs hc
  obtain ⟨-, hcore', hflag', hleads'⟩ := hundo (x s).2 hcore
  have hbind : (x >>= fun r => undo >>= fun _ => look >>= g r) s =
      g (x s).1 (look (undo (x s).2).2).1 (look (undo (x s).2).2).2 := rfl
  rw [hbind, hlook, hflag']
  cases hflag : C.cancelled (x s).2 with
  | true =>
    rw [hcancel]
    refine ⟨hcore', fun h => ?_, C.trans hleads hleads'⟩
    rw [hflag', hflag] at h
    cases h
  | false =>
    obtain ⟨hcore'', hvalue', hleads''⟩ := hg _ hcore' (hflag'.trans hflag)
    rw [hvalue hflag]
    exact ⟨hcore'', hvalue', C.trans (C.trans hleads hleads') hleads''⟩

end Cancellation
