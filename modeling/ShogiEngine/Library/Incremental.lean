import Mathlib

/-!
# Sums kept by differences

A sum over the entries of a table that is brought up to date entry by entry: each pass replaces one
entry and notes what comes in and what goes out.

## Main results

- `foldl_settles`: passes that each settle their own entry settle all of them
- `sum_update`: what a sum over a table gains from the change of one entry
- `sum_map_sdiff`, `sum_map_range'`: what comes in less what goes out, for sets and for counts
-/

namespace Incremental

/-- Passes that settle their own entry and disturb no entry that is settled settle all entries. -/
theorem foldl_settles {σ α : Type} {f : σ → α → σ} {Settled : α → σ → Prop}
    (hset : ∀ s a, Settled a (f s a)) (hkeep : ∀ s a x, Settled x s → Settled x (f s a))
    (l : List α) (s : σ) : ∀ x, x ∈ l ∨ Settled x s → Settled x (l.foldl f s) := by
  induction l generalizing s with
  | nil => exact fun x h => h.resolve_left List.not_mem_nil
  | cons a l ih =>
    intro x h
    rw [List.foldl_cons]
    apply ih
    rcases h with h | h
    · rcases List.mem_cons.mp h with rfl | h
      · exact Or.inr (hset s x)
      · exact Or.inl h
    · exact Or.inr (hkeep s a x h)

variable {M : Type} [AddCommGroup M]

/-- What a sum over a table gains from the change of one entry. -/
theorem sum_update {ι β : Type} [DecidableEq ι] {S : Finset ι} {F : ι → β → M} {g : ι → β} {i : ι}
    (hi : i ∈ S) (v : β) :
    ∑ x ∈ S, F x (Function.update g i v x) = ∑ x ∈ S, F x (g x) + (F i v - F i (g i)) := by
  have hrest : ∑ x ∈ S.erase i, F x (Function.update g i v x) = ∑ x ∈ S.erase i, F x (g x) :=
    Finset.sum_congr rfl fun x hx => by rw [Function.update_of_ne (Finset.ne_of_mem_erase hx)]
  rw [← Finset.add_sum_erase S _ hi, ← Finset.add_sum_erase S (fun x => F x (g x)) hi, hrest,
    Function.update_self]
  abel

/-- A set after its members have come in and gone out. -/
theorem sum_map_sdiff {α : Type} [DecidableEq α] {old cur added removed : List α}
    (hold : old.Nodup) (hcur : cur.Nodup) (hadded : added.Nodup) (hremoved : removed.Nodup)
    (ha : ∀ x, x ∈ added ↔ x ∈ cur ∧ x ∉ old) (hr : ∀ x, x ∈ removed ↔ x ∈ old ∧ x ∉ cur)
    (f : α → M) :
    (added.map f).sum - (removed.map f).sum = (cur.map f).sum - (old.map f).sum := by
  have ha' : added.toFinset = cur.toFinset \ old.toFinset := by
    ext x
    simp only [List.mem_toFinset, Finset.mem_sdiff, ha]
  have hr' : removed.toFinset = old.toFinset \ cur.toFinset := by
    ext x
    simp only [List.mem_toFinset, Finset.mem_sdiff, hr]
  rw [← List.sum_toFinset f hold, ← List.sum_toFinset f hcur, ← List.sum_toFinset f hadded,
    ← List.sum_toFinset f hremoved, ha', hr', Finset.sum_sdiff_sub_sum_sdiff]

/-- A count after its units have come in and gone out. -/
theorem sum_map_range' (old cur : Nat) (f : Nat → M) :
    ((List.range' (old + 1) (cur - old)).map f).sum -
        ((List.range' (cur + 1) (old - cur)).map f).sum =
      ((List.range' 1 cur).map f).sum - ((List.range' 1 old).map f).sum := by
  have hsplit : ∀ n k, ((List.range' 1 (n + k)).map f).sum =
      ((List.range' 1 n).map f).sum + ((List.range' (n + 1) k).map f).sum := by
    intro n k
    rw [← List.sum_append, ← List.map_append, Nat.add_comm n 1, List.range'_append_1]
  rcases Nat.le_total old cur with h | h
  · obtain ⟨k, rfl⟩ := Nat.exists_eq_add_of_le h
    rw [Nat.add_sub_cancel_left, Nat.sub_eq_zero_of_le h, hsplit, List.range'_zero, List.map_nil,
      List.sum_nil]
    abel
  · obtain ⟨k, rfl⟩ := Nat.exists_eq_add_of_le h
    rw [Nat.add_sub_cancel_left, Nat.sub_eq_zero_of_le h, hsplit, List.range'_zero, List.map_nil,
      List.sum_nil]
    abel

end Incremental
