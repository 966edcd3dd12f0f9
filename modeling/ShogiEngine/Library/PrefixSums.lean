import Mathlib

/-!
# Blocks laid one after the other

Numbers handed out in blocks: block `i` begins where the sizes of the blocks before it add up to,
and within a block an element has the number of those below it.

## Main definitions

- `PrefixSums.before`: the beginning of a block
- `PrefixSums.rank`: the number of elements below one
- `PrefixSums.put`: filling the blocks one element after the other

## Main results

- `PrefixSums.before_add_lt`, `PrefixSums.before_add_inj`: blocks do not overlap
- `PrefixSums.rank_lt`, `PrefixSums.rank_inj`: ranks within a block
- `PrefixSums.map_cells`: each block holds its own elements in order
-/

namespace PrefixSums

/-- The sizes of the first `i` blocks together. -/
def before (size : Nat → Nat) : Nat → Nat
  | 0 => 0
  | i + 1 => before size i + size i

variable {size : Nat → Nat} {i j n x y : Nat}

theorem before_mono (h : i ≤ j) : before size i ≤ before size j := by
  induction h with
  | refl => exact le_rfl
  | step _ ih => exact ih.trans (Nat.le_add_right _ _)

theorem before_add_le (h : i < j) : before size i + size i ≤ before size j :=
  before_mono (Nat.succ_le_of_lt h)

/-- A number of a block is below the total. -/
theorem before_add_lt (hi : i < n) (hx : x < size i) : before size i + x < before size n := by
  have hle : before size i + size i ≤ before size n := before_add_le hi
  omega

/-- A number decides its block and its place there. -/
theorem before_add_inj (hx : x < size i) (hy : y < size j)
    (h : before size i + x = before size j + y) : i = j ∧ x = y := by
  have hij : i = j := by
    by_contra hne
    rcases Nat.lt_or_gt_of_ne hne with hlt | hlt
    · have hle : before size i + size i ≤ before size j := before_add_le hlt
      omega
    · have hle : before size j + size j ≤ before size i := before_add_le hlt
      omega
  subst hij
  exact ⟨rfl, Nat.add_left_cancel h⟩

/-- The total of equal sizes in rows of `k`. -/
theorem before_append (m : Nat) :
    before size (n + m) = before size n + before (fun i => size (n + i)) m := by
  induction m with
  | zero => rfl
  | succ m ih => rw [← Nat.add_assoc, before, ih, before, Nat.add_assoc]

theorem before_le {m : Nat} (h : ∀ i < n, size i ≤ m) : before size n ≤ n * m := by
  induction n with
  | zero => exact Nat.zero_le _
  | succ n ih =>
    rw [before, Nat.succ_mul]
    exact Nat.add_le_add (ih fun i hi => h i (Nat.lt_succ_of_lt hi)) (h n (Nat.lt_succ_self n))

theorem before_congr {size' : Nat → Nat} (h : ∀ i < n, size i = size' i) :
    before size n = before size' n := by
  induction n with
  | zero => rfl
  | succ n ih =>
    rw [before, before, ih fun i hi => h i (Nat.lt_succ_of_lt hi), h n (Nat.lt_succ_self n)]

section Rank

variable {α : Type} [LinearOrder α] {s : Finset α} {a b : α}

/-- The number of elements below `a`. -/
def rank (s : Finset α) (a : α) : Nat := (s.filter (· < a)).card

theorem rank_lt (ha : a ∈ s) : rank s a < s.card := by
  refine Finset.card_lt_card (Finset.filter_ssubset.mpr ⟨a, ha, lt_irrefl a⟩)

theorem rank_lt_rank (ha : a ∈ s) (hab : a < b) : rank s a < rank s b := by
  refine Finset.card_lt_card (Finset.ssubset_iff_of_subset ?_ |>.mpr ⟨a, ?_, ?_⟩)
  · intro x hx
    rw [Finset.mem_filter] at hx ⊢
    exact ⟨hx.1, hx.2.trans hab⟩
  · exact Finset.mem_filter.mpr ⟨ha, hab⟩
  · exact fun h => lt_irrefl a (Finset.mem_filter.mp h).2

theorem rank_inj (ha : a ∈ s) (hb : b ∈ s) (h : rank s a = rank s b) : a = b := by
  rcases lt_trichotomy a b with hlt | heq | hlt
  · exact absurd h (rank_lt_rank ha hlt).ne
  · exact heq
  · exact absurd h (rank_lt_rank hb hlt).ne'

end Rank

section Fill

variable {ε α : Type} {key : ε → Nat} {item : ε → α} {l : List ε} {e : ε}

/-- Blocks that are being filled, with the number of elements in each. -/
structure Filling (α : Type) where
  count : Nat → Nat
  cells : Nat → α

/-- An element goes behind those that its block has. -/
def put (size : Nat → Nat) (key : ε → Nat) (item : ε → α) (s : Filling α) (e : ε) : Filling α where
  count := Function.update s.count (key e) (s.count (key e) + 1)
  cells := Function.update s.cells (before size (key e) + s.count (key e)) (item e)

/-- The elements of block `i`. -/
def block (key : ε → Nat) (item : ε → α) (l : List ε) (i : Nat) : List α :=
  (l.filter fun e => key e = i).map item

/-- The blocks before the `n`-th one hold the elements with smaller keys. -/
theorem before_countP (l : List ε) (key : ε → Nat) (n : Nat) :
    before (fun i => l.countP fun e => key e = i) n = l.countP fun e => key e < n := by
  induction n with
  | zero =>
    rw [before, eq_comm, List.countP_eq_zero]
    exact fun e _ h => Nat.not_lt_zero _ (of_decide_eq_true h)
  | succ n ih =>
    rw [before, ih]
    clear ih
    induction l with
    | nil => rfl
    | cons e l ih =>
      simp only [List.countP_cons, decide_eq_true_eq]
      rw [← ih]
      split <;> split <;> split <;> omega

theorem block_concat : block key item (l ++ [e]) i =
    block key item l i ++ if key e = i then [item e] else [] := by
  rw [block, List.filter_append, List.map_append, block, List.filter_singleton]
  by_cases h : key e = i
  · rw [if_pos h, decide_eq_true h]
    rfl
  · rw [if_neg h, decide_eq_false h]
    rfl

/-- Filling blocks that are large enough. -/
theorem foldl_put (cells : Nat → α) (hsize : ∀ i, (block key item l i).length ≤ size i) (i : Nat) :
    (l.foldl (put size key item) ⟨fun _ => 0, cells⟩).count i = (block key item l i).length ∧
      ∀ x < (block key item l i).length, (block key item l i)[x]? =
        some ((l.foldl (put size key item) ⟨fun _ => 0, cells⟩).cells (before size i + x)) := by
  induction l using List.reverseRecOn generalizing i with
  | nil => exact ⟨rfl, fun x hx => absurd hx (Nat.not_lt_zero x)⟩
  | append_singleton l e ih =>
    have hle : ∀ i, (block key item l i).length ≤ size i := by
      intro i
      refine le_trans ?_ (hsize i)
      rw [block_concat, List.length_append]
      exact Nat.le_add_right _ _
    -- the block of the new element has room for it
    have hroom : (block key item l (key e)).length < size (key e) := by
      have := hsize (key e)
      rw [block_concat, if_pos rfl, List.length_append] at this
      exact this
    obtain ⟨hcount, hcells⟩ := ih hle i
    have hcount' := (ih hle (key e)).1
    rw [List.foldl_append, List.foldl_cons, List.foldl_nil, put, block_concat]
    simp only [Function.update_apply, hcount']
    by_cases hkey : key e = i
    · subst hkey
      rw [if_pos rfl, if_pos rfl, List.length_append]
      refine ⟨rfl, fun x hx => ?_⟩
      by_cases hlast : x = (block key item l (key e)).length
      · rw [if_pos (by rw [hlast]), hlast, List.getElem?_append_right le_rfl, Nat.sub_self]
        rfl
      · have hlt : x < (block key item l (key e)).length := by
          rw [List.length_singleton] at hx
          omega
        rw [if_neg (by omega), List.getElem?_append_left hlt]
        exact hcells x hlt
    · rw [if_neg hkey, if_neg (Ne.symm hkey), List.append_nil]
      refine ⟨hcount, fun x hx => ?_⟩
      rw [if_neg fun h => hkey (before_add_inj (hx.trans_le (hle i)) hroom h).1.symm]
      exact hcells x hx

/-- Each block holds its own elements in order. -/
theorem map_cells (cells : Nat → α) (hsize : ∀ i, (block key item l i).length ≤ size i)
    (hi : (block key item l i).length = size i) :
    (List.range' (before size i) (size i)).map
        (l.foldl (put size key item) ⟨fun _ => 0, cells⟩).cells = block key item l i := by
  refine List.ext_getElem? fun x => ?_
  by_cases hx : x < size i
  · rw [List.getElem?_map, List.getElem?_range' hx, Option.map_some, Nat.one_mul,
      (foldl_put cells hsize i).2 x (hi ▸ hx)]
  · have hlength : ((List.range' (before size i) (size i)).map
        (l.foldl (put size key item) ⟨fun _ => 0, cells⟩).cells).length ≤ x := by
      rw [List.length_map, List.length_range']
      exact not_lt.mp hx
    rw [List.getElem?_eq_none hlength, List.getElem?_eq_none (hi ▸ not_lt.mp hx)]

end Fill

end PrefixSums
