import Mathlib

/-!
# Streams of records

Records of varying length written one after the other, and a reader that is called again and again.
A stream may end within a record.

## Main definitions

- `RecordStream.result`: what the calls of a reader return
- `RecordStream.Reads`: a reader that takes one whole record at each call

## Main results

- `RecordStream.result_flatMap`: the records are read back, and then the stream ends
- `RecordStream.result_take`: of a stream that is cut, the whole records are read back
-/

namespace RecordStream

variable {α β : Type} {enc : α → List β} {next : List β → Option α × List β} {as : List α} {s : List β}

/-- The result of call `i`, each call going on where the one before has stopped. -/
def result (next : List β → Option α × List β) : List β → Nat → Option α
  | s, 0 => (next s).1
  | s, i + 1 => result next (next s).2 i

/-- A whole record is read, and nothing behind it; of a record that is cut nothing is returned, and
the stream has ended. -/
structure Reads (enc : α → List β) (next : List β → Option α × List β) (as : List α) : Prop where
  whole : ∀ a ∈ as, ∀ rest, next (enc a ++ rest) = (some a, rest)
  cut : ∀ a ∈ as, ∀ k < (enc a).length, next ((enc a).take k) = (none, [])
  nil : next [] = (none, [])

theorem Reads.tail {a : α} (h : Reads enc next (a :: as)) : Reads enc next as where
  whole x hx := h.whole x (List.mem_cons_of_mem a hx)
  cut x hx := h.cut x (List.mem_cons_of_mem a hx)
  nil := h.nil

/-- A stream that has ended stays so. -/
theorem result_of_end (hnil : next [] = (none, [])) (hs : next s = (none, [])) (i : Nat) :
    result next s i = none := by
  induction i generalizing s with
  | zero => rw [result, hs]
  | succ i ih =>
    rw [result, hs]
    exact ih hnil

/-- The records are read back in order, and then the stream ends. -/
theorem result_flatMap (h : Reads enc next as) (i : Nat) :
    result next (as.flatMap enc) i = as[i]? := by
  induction as generalizing i with
  | nil => exact result_of_end h.nil h.nil i
  | cons a as ih =>
    have hfirst := h.whole a List.mem_cons_self (as.flatMap enc)
    cases i with
    | zero =>
      rw [List.flatMap_cons, result, hfirst]
      rfl
    | succ i =>
      rw [List.flatMap_cons, result, hfirst]
      exact ih h.tail i

/-- Of a stream that is cut anywhere, the records before the cut are read back. -/
theorem result_take (h : Reads enc next as) (k : Nat) : ∃ n ≤ as.length,
    ((as.take n).flatMap enc).length ≤ k ∧
      (n < as.length → k < ((as.take (n + 1)).flatMap enc).length) ∧
      ∀ i, result next ((as.flatMap enc).take k) i = (as.take n)[i]? := by
  induction as generalizing k with
  | nil =>
    refine ⟨0, le_rfl, Nat.zero_le k, fun hn => absurd hn (Nat.not_lt_zero 0), fun i => ?_⟩
    rw [List.flatMap_nil, List.take_nil]
    exact result_of_end h.nil h.nil i
  | cons a as ih =>
    by_cases hk : (enc a).length ≤ k
    · -- the first record is whole, and the cut is in the rest
      obtain ⟨n, hn, hfit, hnext, hresult⟩ := ih h.tail (k - (enc a).length)
      have hsplit : ((a :: as).flatMap enc).take k =
          enc a ++ (as.flatMap enc).take (k - (enc a).length) := by
        rw [List.flatMap_cons, List.take_append, List.take_of_length_le hk]
      have hlength : ∀ m, (((a :: as).take (m + 1)).flatMap enc).length =
          (enc a).length + ((as.take m).flatMap enc).length := by
        intro m
        rw [List.take_succ_cons, List.flatMap_cons, List.length_append]
      refine ⟨n + 1, Nat.succ_le_succ hn, ?_, fun hlt => ?_, fun i => ?_⟩
      · rw [hlength]
        omega
      · have hlt := hnext (Nat.lt_of_succ_lt_succ hlt)
        rw [hlength]
        omega
      · have hfirst := h.whole a List.mem_cons_self ((as.flatMap enc).take (k - (enc a).length))
        rw [hsplit]
        cases i with
        | zero =>
          rw [result, hfirst]
          rfl
        | succ i =>
          rw [result, hfirst]
          exact hresult i
    · have hlt : k < (enc a).length := not_le.mp hk
      have hcut : ((a :: as).flatMap enc).take k = (enc a).take k := by
        rw [List.flatMap_cons, List.take_append_of_le_length hlt.le]
      refine ⟨0, Nat.zero_le _, Nat.zero_le k, fun _ => ?_, fun i => ?_⟩
      · rw [List.take_succ_cons, List.take_zero, List.flatMap_singleton]
        exact hlt
      · rw [hcut]
        exact result_of_end h.nil (h.cut a List.mem_cons_self k hlt) i

end RecordStream
