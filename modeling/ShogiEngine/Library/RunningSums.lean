import Mathlib

/-!
# Running sums in a word

Numbers added one after the other to a start value, without bound and in a word of `w` bits: the word holds
the sum as long as no sum on the way leaves its range.

## Main definitions

- `RunningSums.sums`: the sums on the way, the start value included

## Main results

- `mem_sums`: the sums on the way are the sums of the prefixes
- `abs_le_of_mem_sums`: how far they go
- `foldl_ofInt`: the word that is added up is the sum, cut to its width
-/

namespace RunningSums

variable {l : List Int} {x y m : Int}

/-- The start value and the sums after each step. -/
def sums (x : Int) : List Int → List Int
  | [] => [x]
  | a :: l => x :: sums (x + a) l

theorem mem_sums : y ∈ sums x l ↔ ∃ l', l' <+: l ∧ y = x + l'.sum := by
  induction l generalizing x with
  | nil =>
    rw [sums, List.mem_singleton]
    constructor
    · rintro rfl
      exact ⟨[], List.nil_prefix, (add_zero _).symm⟩
    · rintro ⟨l', hl', rfl⟩
      rw [List.prefix_nil.mp hl', List.sum_nil, add_zero]
  | cons a l ih =>
    rw [sums, List.mem_cons, ih]
    constructor
    · rintro (rfl | ⟨l', hl', rfl⟩)
      · exact ⟨[], List.nil_prefix, (add_zero _).symm⟩
      · exact ⟨a :: l', (List.prefix_cons_inj a).mpr hl', by rw [List.sum_cons, add_assoc]⟩
    · rintro ⟨l', hl', rfl⟩
      rcases List.prefix_cons_iff.mp hl' with rfl | ⟨k, rfl, hk⟩
      · exact Or.inl (add_zero _)
      · exact Or.inr ⟨k, hk, by rw [List.sum_cons, add_assoc]⟩

/-- The last sum is the sum of all. -/
theorem sum_mem_sums (x : Int) (l : List Int) : x + l.sum ∈ sums x l :=
  mem_sums.mpr ⟨l, List.prefix_rfl, rfl⟩

theorem abs_sum_le (h : ∀ a ∈ l, |a| ≤ m) : |l.sum| ≤ m * l.length := by
  induction l with
  | nil => simp
  | cons a l ih =>
    obtain ⟨ha, hl⟩ := List.forall_mem_cons.mp h
    have hsum := ih hl
    rw [List.sum_cons, List.length_cons, Nat.cast_add, Nat.cast_one, mul_add, mul_one, add_comm (m * _)]
    exact (abs_add_le a l.sum).trans (add_le_add ha hsum)

/-- Steps of at most `m` lead at most `m` further each. -/
theorem abs_le_of_mem_sums (h : ∀ a ∈ l, |a| ≤ m) (hy : y ∈ sums x l) : |y| ≤ |x| + m * l.length := by
  obtain ⟨l', hl', rfl⟩ := mem_sums.mp hy
  have hsum := abs_sum_le fun a ha => h a (hl'.subset ha)
  have hlen : l'.length ≤ l.length := hl'.length_le
  have hm : m * l'.length ≤ m * l.length := by
    rcases l'.eq_nil_or_concat with rfl | ⟨k, a, rfl⟩
    · rcases l.eq_nil_or_concat with rfl | ⟨k, a, rfl⟩
      · exact le_rfl
      · have ha := (abs_nonneg a).trans (h a (by simp))
        rw [List.length_nil, Nat.cast_zero, mul_zero]
        exact mul_nonneg ha (Nat.cast_nonneg _)
    · have ha := (abs_nonneg a).trans (h a (hl'.subset (by simp)))
      exact mul_le_mul_of_nonneg_left (Nat.cast_le.mpr hlen) ha
  exact (abs_add_le x l'.sum).trans (by omega)

/-- Added up in a word, the result is the sum, cut to the width of the word. -/
theorem foldl_ofInt {w : Nat} (l : List Int) (x : Int) :
    l.foldl (fun z a => z + BitVec.ofInt w a) (BitVec.ofInt w x) = BitVec.ofInt w (x + l.sum) := by
  induction l generalizing x with
  | nil => rw [List.foldl_nil, List.sum_nil, add_zero]
  | cons a l ih => rw [List.foldl_cons, ← BitVec.ofInt_add, ih, List.sum_cons, add_assoc]

end RunningSums
