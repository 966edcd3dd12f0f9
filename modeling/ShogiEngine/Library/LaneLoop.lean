import Mathlib

/-!
# Loops over buffers

Buffers of a fixed length whose cells are read and written one by one or in groups of lanes, and
loops that advance by a fixed step. An access beyond the length fails, so that a run that succeeds
has touched nothing else.

## Main definitions

- `Buffer`: cells and their number
- `Buffer.read`, `Buffer.write`, `Buffer.load`, `Buffer.store`: accesses of one cell and of `k` lanes
- `Buffer.sweep`: a change of each of the first cells
- `forLoop`: `for (i = 0; i < n; i += step)`

## Main results

- `forLoop_eq`, `forLoop_inv`: a loop goes through the states that its body leads to, and keeps what
  each pass keeps
- `foldlM_eq`: a loop over a list whose passes all succeed
- `forLoop_cells`, `forLoop_lanes`: loops that change one cell or `k` lanes in each pass
- `sum_range_mul`: a sum taken in blocks
-/

/-- Cells in memory; the first `len` of them belong to the buffer. -/
@[ext]
structure Buffer (α : Type) where
  len : Nat
  cell : Nat → α

namespace Buffer

variable {α : Type} {b : Buffer α} {i k : Nat}

def read (b : Buffer α) (i : Nat) : Option α := if i < b.len then some (b.cell i) else none

def write (b : Buffer α) (i : Nat) (x : α) : Option (Buffer α) :=
  if i < b.len then some ⟨b.len, Function.update b.cell i x⟩ else none

/-- The `k` lanes from cell `i` on. -/
def load (k : Nat) (b : Buffer α) (i : Nat) : Option (Fin k → α) :=
  if i + k ≤ b.len then some fun l => b.cell (i + l) else none

/-- The cells after `k` lanes have been put down from cell `i` on. -/
def put (f : Nat → α) (i : Nat) (v : Fin k → α) : Nat → α :=
  fun j => if h : i ≤ j ∧ j < i + k then v ⟨j - i, by omega⟩ else f j

def store (b : Buffer α) (i : Nat) (v : Fin k → α) : Option (Buffer α) :=
  if i + k ≤ b.len then some ⟨b.len, put b.cell i v⟩ else none

theorem read_eq (h : i < b.len) : b.read i = some (b.cell i) := if_pos h

theorem write_eq (h : i < b.len) (x : α) :
    b.write i x = some ⟨b.len, Function.update b.cell i x⟩ := if_pos h

theorem load_eq (h : i + k ≤ b.len) : b.load k i = some fun l : Fin k => b.cell (i + l) :=
  if_pos h

theorem store_eq (h : i + k ≤ b.len) (v : Fin k → α) : b.store i v = some ⟨b.len, put b.cell i v⟩ :=
  if_pos h

/-- Lanes that hold the values of a function, put down behind cells that do so already. -/
theorem put_below {f g : Nat → α} (v : Fin k → α) (hv : ∀ l, v l = g (i + l)) :
    put (fun j => if j < i then g j else f j) i v = fun j => if j < i + k then g j else f j := by
  funext j
  rw [put]
  split
  · rename_i h
    rw [hv, if_pos h.2]
    congr 1
    simp only
    omega
  · rename_i h
    by_cases hj : j < i
    · rw [if_pos hj, if_pos (by omega)]
    · rw [if_neg hj, if_neg (by omega)]

/-- A change of each of the first `n` cells. -/
def sweep (n : Nat) (f : Nat → α → α) (b : Buffer α) : Buffer α :=
  ⟨b.len, fun i => if i < n then f i (b.cell i) else b.cell i⟩

theorem sweep_sweep (n : Nat) (f g : Nat → α → α) (b : Buffer α) :
    sweep n g (sweep n f b) = sweep n (fun i x => g i (f i x)) b := by
  rw [sweep, sweep, sweep]
  congr 1
  funext i
  simp only
  by_cases hi : i < n
  · rw [if_pos hi, if_pos hi, if_pos hi]
  · rw [if_neg hi, if_neg hi, if_neg hi]

/-- Changes one after the other are one change. -/
theorem foldl_sweep {β : Type} (n : Nat) (f : β → Nat → α → α) (l : List β) (b : Buffer α) :
    l.foldl (fun b x => sweep n (f x) b) b =
      sweep n (fun i y => l.foldl (fun y x => f x i y) y) b := by
  induction l generalizing b with
  | nil =>
    refine Buffer.ext rfl (funext fun i => ?_)
    rw [List.foldl_nil, sweep]
    exact (ite_self _).symm
  | cons x l ih => rw [List.foldl_cons, ih, sweep_sweep]; rfl

end Buffer

section Loops

variable {σ α : Type}

/-- `for (i = 0; i < n; i += step)`. -/
def forLoop (n step : Nat) (body : Nat → σ → Option σ) (s : σ) : Option σ :=
  (List.range ((n + step - 1) / step)).foldlM (fun s q => body (q * step) s) s

/-- A loop over a list whose passes all succeed. -/
theorem foldlM_eq {body : σ → α → Option σ} {next : σ → α → σ} {l : List α} (Inv : σ → Prop)
    {s : σ} (hs : Inv s) (hbody : ∀ s, ∀ x ∈ l, Inv s → body s x = some (next s x) ∧ Inv (next s x)) :
    l.foldlM body s = some (l.foldl next s) ∧ Inv (l.foldl next s) := by
  induction l generalizing s with
  | nil => exact ⟨rfl, hs⟩
  | cons x l ih =>
    obtain ⟨hx, hnext⟩ := hbody s x List.mem_cons_self hs
    obtain ⟨h1, h2⟩ := ih hnext fun s y hy => hbody s y (List.mem_cons_of_mem _ hy)
    refine ⟨?_, h2⟩
    rw [List.foldlM_cons, hx, List.foldl_cons, ← h1]
    rfl

/-- A loop goes through the states that its body leads to. -/
theorem forLoop_eq {n step : Nat} {body : Nat → σ → Option σ} (state : Nat → σ)
    (hbody : ∀ q, q < (n + step - 1) / step → body (q * step) (state q) = some (state (q + 1))) :
    forLoop n step body (state 0) = some (state ((n + step - 1) / step)) := by
  rw [forLoop]
  generalize (n + step - 1) / step = m at hbody ⊢
  induction m with
  | zero => rfl
  | succ m ih =>
    rw [List.range_succ, List.foldlM_append, ih fun q hq => hbody q (Nat.lt_succ_of_lt hq)]
    have hlast := hbody m (Nat.lt_succ_self m)
    simp only [List.foldlM_cons, List.foldlM_nil, Option.bind_eq_bind, Option.bind_some, hlast]
    rfl

/-- What each pass keeps holds behind a loop that succeeds. -/
theorem forLoop_inv {n step : Nat} {body : Nat → σ → Option σ} {s s' : σ} (Inv : Nat → σ → Prop) (hs : Inv 0 s)
    (hbody : ∀ q s s', Inv q s → body (q * step) s = some s' → Inv (q + 1) s')
    (h : forLoop n step body s = some s') : Inv ((n + step - 1) / step) s' := by
  rw [forLoop] at h
  generalize (n + step - 1) / step = m at h ⊢
  induction m generalizing s' with
  | zero =>
    cases h
    exact hs
  | succ m ih =>
    rw [List.range_succ, List.foldlM_append] at h
    obtain ⟨t, ht, hlast⟩ := Option.bind_eq_some_iff.mp h
    obtain ⟨u, hu, hlast⟩ := Option.bind_eq_some_iff.mp hlast
    cases hlast
    exact hbody m t _ (ih ht) hu

/-- The number of passes over a multiple of the step. -/
theorem passes_mul {m step : Nat} (h : 0 < step) : (m * step + step - 1) / step = m := by
  rw [show m * step + step - 1 = step * m + (step - 1) by rw [Nat.mul_comm]; omega,
    Nat.mul_add_div h, Nat.div_eq_of_lt (by omega), Nat.add_zero]

/-- A loop that changes one cell in each pass. -/
theorem forLoop_cells {n : Nat} {body : Nat → σ → Option σ} (mk : (Nat → α) → σ) {f g : Nat → α}
    (hbody : ∀ i < n, ∀ c : Nat → α, c i = f i →
      body i (mk c) = some (mk (Function.update c i (g i)))) :
    forLoop n 1 body (mk f) = some (mk fun i => if i < n then g i else f i) := by
  have hstart : (fun i => if i < 0 then g i else f i) = f := by
    funext i
    exact if_neg (Nat.not_lt_zero i)
  have hloop := @forLoop_eq σ n 1 body (fun q => mk fun i => if i < q then g i else f i)
    (fun q hq => by
      rw [Nat.add_sub_cancel, Nat.div_one] at hq
      rw [Nat.mul_one, hbody q hq _ (if_neg (lt_irrefl q))]
      congr 2
      funext i
      by_cases hi : i = q
      · rw [hi, Function.update_self, if_pos (Nat.lt_succ_self q)]
      · rw [Function.update_of_ne hi]
        exact if_congr (by omega) rfl rfl)
  rw [Nat.add_sub_cancel, Nat.div_one, hstart] at hloop
  exact hloop

/-- A loop that puts down the values of a function, `k` lanes in each pass. -/
theorem forLoop_lanes {m k : Nat} (hk : 0 < k) {body : Nat → σ → Option σ} (mk : (Nat → α) → σ)
    {f g : Nat → α} (hbody : ∀ q < m, ∀ c : Nat → α, (∀ j, q * k ≤ j → c j = f j) →
      body (q * k) (mk c) = some (mk (Buffer.put c (q * k) fun l : Fin k => g (q * k + l)))) :
    forLoop (m * k) k body (mk f) = some (mk fun i => if i < m * k then g i else f i) := by
  have hstart : (fun i => if i < 0 * k then g i else f i) = f := by
    funext i
    exact if_neg (by omega)
  have hloop := @forLoop_eq σ (m * k) k body (fun q => mk fun i => if i < q * k then g i else f i)
    (fun q hq => by
      rw [passes_mul hk] at hq
      rw [hbody q hq _ fun j hj => if_neg (not_lt.mpr hj), Buffer.put_below _ fun l => rfl,
        Nat.succ_mul])
  rw [passes_mul hk, hstart] at hloop
  exact hloop

/-- A sum taken in blocks of `k`. -/
theorem sum_range_mul {M : Type} [AddCommMonoid M] (f : Nat → M) (m k : Nat) :
    ∑ i ∈ Finset.range (m * k), f i =
      ∑ q ∈ Finset.range m, ∑ j ∈ Finset.range k, f (q * k + j) := by
  induction m with
  | zero => rw [Nat.zero_mul, Finset.range_zero, Finset.sum_empty, Finset.sum_empty]
  | succ m ih => rw [Nat.succ_mul, Finset.sum_range_add, ih, Finset.sum_range_succ]

end Loops
