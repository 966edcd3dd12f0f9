import Mathlib

/-!
# Little-endian records

Words as lists of bytes with the lowest byte first, and readers that take the fields of a record
from the front of a stream one after the other.

## Main definitions

- `LittleEndian.leWord`, `LittleEndian.leBytes`: a word from its bytes and the bytes of a word
- `LittleEndian.readWord`, `LittleEndian.readWords`, `LittleEndian.readBytes`: the readers

## Main results

- `LittleEndian.leWord_leBytes`: the word is restored
- `LittleEndian.readWord_append`, `LittleEndian.readWords_append`, `LittleEndian.readBytes_append`: a
  reader takes back what was written
- `LittleEndian.drop_flatMap`: the stream from a record on, where all records have one size
- `LittleEndian.leBytes_readWord`, `LittleEndian.flatMap_readWords`, `LittleEndian.toList_readBytes`: what
  was read has the bytes of the stream
-/

namespace LittleEndian

/-- Bytes as a word, the lowest one first. -/
def leWord (w : Nat) : List (BitVec 8) → BitVec w
  | [] => 0#w
  | b :: bs => b.setWidth w ^^^ (leWord w bs <<< 8)

/-- The lowest `n` bytes of a word. -/
def leBytes {w : Nat} : Nat → BitVec w → List (BitVec 8)
  | 0, _ => []
  | n + 1, x => x.setWidth 8 :: leBytes n (x >>> 8)

/-- The next `n` bytes as a word, and what is left. -/
def readWord (w n : Nat) (s : List (BitVec 8)) : BitVec w × List (BitVec 8) :=
  (leWord w (s.take n), s.drop n)

/-- The next `k` words of `n` bytes each, and what is left. -/
def readWords (w n k : Nat) (s : List (BitVec 8)) : Vector (BitVec w) k × List (BitVec 8) :=
  (.ofFn fun i => leWord w ((s.drop (n * i)).take n), s.drop (n * k))

/-- The next `n` bytes, and what is left. -/
def readBytes (n : Nat) (s : List (BitVec 8)) : Vector (BitVec 8) n × List (BitVec 8) :=
  (.ofFn fun i => s.getD i 0#8, s.drop n)

variable {w n : Nat}

theorem getLsbD_leWord {bs : List (BitVec 8)} {i : Nat} (hi : 8 * bs.length ≤ i) :
    (leWord w bs).getLsbD i = false := by
  induction bs generalizing i with
  | nil => exact BitVec.getLsbD_zero
  | cons b bs ih =>
    rw [List.length_cons] at hi
    rw [leWord, BitVec.getLsbD_xor, BitVec.getLsbD_setWidth, BitVec.getLsbD_shiftLeft,
      BitVec.getLsbD_of_ge b i (by omega), ih (by omega)]
    simp

@[simp] theorem length_leBytes (x : BitVec w) : (leBytes n x).length = n := by
  induction n generalizing x with
  | zero => rfl
  | succ n ih => rw [leBytes, List.length_cons, ih]

/-- A word is restored from bytes that hold all its bits. -/
theorem leWord_leBytes {x : BitVec w} (h : ∀ i, 8 * n ≤ i → x.getLsbD i = false) :
    leWord w (leBytes n x) = x := by
  induction n generalizing x with
  | zero =>
    apply BitVec.eq_of_getLsbD_eq
    intro i _
    rw [leBytes, leWord, BitVec.getLsbD_zero, h i (Nat.zero_le _)]
  | succ n ih =>
    have hrest : ∀ i, 8 * n ≤ i → (x >>> 8).getLsbD i = false := by
      intro i hi
      rw [BitVec.getLsbD_ushiftRight]
      exact h _ (by omega)
    rw [leBytes, leWord, ih hrest]
    apply BitVec.eq_of_getLsbD_eq
    intro i hi
    simp only [BitVec.getLsbD_xor, BitVec.getLsbD_setWidth, BitVec.getLsbD_shiftLeft,
      BitVec.getLsbD_ushiftRight, hi, decide_true, Bool.true_and]
    by_cases hlow : i < 8
    · simp [hlow]
    · have hback : 8 + (i - 8) = i := by omega
      simp [hlow, hback]

theorem leWord_leBytes_of_le (h : w ≤ 8 * n) (x : BitVec w) : leWord w (leBytes n x) = x :=
  leWord_leBytes fun i hi => BitVec.getLsbD_of_ge x i (h.trans hi)

theorem readWord_append (h : w ≤ 8 * n) (x : BitVec w) (rest : List (BitVec 8)) :
    readWord w n (leBytes n x ++ rest) = (x, rest) := by
  rw [readWord, List.take_left' (length_leBytes x), List.drop_left' (length_leBytes x),
    leWord_leBytes_of_le h]

/-- Records of one size: the stream from record `i` on. -/
theorem drop_flatMap {α : Type} {f : α → List (BitVec 8)} (hf : ∀ a, (f a).length = n) {l : List α}
    {i : Nat} (hi : i < l.length) (rest : List (BitVec 8)) :
    (l.flatMap f ++ rest).drop (n * i) =
      f (l.get ⟨i, hi⟩) ++ ((l.drop (i + 1)).flatMap f ++ rest) := by
  induction l generalizing i with
  | nil => exact absurd hi (Nat.not_lt_zero i)
  | cons x l ih =>
    rw [List.flatMap_cons, List.append_assoc]
    cases i with
    | zero => rfl
    | succ i =>
      rw [Nat.mul_succ, Nat.add_comm, ← List.drop_drop, List.drop_left' (hf x),
        ih (Nat.lt_of_succ_lt_succ hi)]
      rfl

theorem length_flatMap {α : Type} {f : α → List (BitVec 8)} (hf : ∀ a, (f a).length = n)
    (l : List α) : (l.flatMap f).length = n * l.length := by
  induction l with
  | nil => rfl
  | cons x l ih =>
    rw [List.flatMap_cons, List.length_append, hf, ih, List.length_cons, Nat.mul_succ, Nat.add_comm]

@[simp] theorem length_flatMap_leBytes (l : List (BitVec w)) :
    (l.flatMap (leBytes n)).length = n * l.length := length_flatMap length_leBytes l

/-- The bytes of the word at place `i`. -/
theorem take_drop_flatMap_leBytes {l : List (BitVec w)} {i : Nat} (hi : i < l.length)
    (rest : List (BitVec 8)) :
    ((l.flatMap (leBytes n) ++ rest).drop (n * i)).take n = leBytes n (l.get ⟨i, hi⟩) := by
  rw [drop_flatMap length_leBytes hi, List.take_left' (length_leBytes _)]

theorem readWords_append {k : Nat} (h : w ≤ 8 * n) (v : Vector (BitVec w) k)
    (rest : List (BitVec 8)) :
    readWords w n k (v.toList.flatMap (leBytes n) ++ rest) = (v, rest) := by
  have hlen : (v.toList.flatMap (leBytes n)).length = n * k := by
    rw [length_flatMap_leBytes, Vector.length_toList]
  rw [readWords, List.drop_left' hlen]
  congr 1
  ext1 i hi
  have hi' : i < v.toList.length := by rwa [Vector.length_toList]
  rw [Vector.getElem_ofFn, take_drop_flatMap_leBytes hi', leWord_leBytes_of_le h]
  simp

theorem readBytes_append (v : Vector (BitVec 8) n) (rest : List (BitVec 8)) :
    readBytes n (v.toList ++ rest) = (v, rest) := by
  rw [readBytes, List.drop_left' Vector.length_toList]
  congr 1
  ext i hi
  rw [Vector.getElem_ofFn, List.getD_append _ _ _ _ (by simpa using hi)]
  simp [hi]

/-! ## What was read as bytes again -/

/-- The bytes of a word are those that it was made from. -/
theorem leBytes_leWord {bs : List (BitVec 8)} (h : 8 * bs.length ≤ w) :
    leBytes bs.length (leWord w bs) = bs := by
  induction bs with
  | nil => rfl
  | cons b bs ih =>
    rw [List.length_cons] at h ⊢
    have hlow : (leWord w (b :: bs)).setWidth 8 = b := by
      apply BitVec.eq_of_getLsbD_eq
      intro i hi
      rw [leWord, BitVec.getLsbD_setWidth, BitVec.getLsbD_xor, BitVec.getLsbD_setWidth,
        BitVec.getLsbD_shiftLeft]
      simp [hi, show i < w by omega]
    have hhigh : leWord w (b :: bs) >>> 8 = leWord w bs := by
      apply BitVec.eq_of_getLsbD_eq
      intro i hi
      rw [leWord, BitVec.getLsbD_ushiftRight, BitVec.getLsbD_xor, BitVec.getLsbD_setWidth,
        BitVec.getLsbD_shiftLeft, BitVec.getLsbD_of_ge b (8 + i) (by omega)]
      by_cases hw : 8 + i < w
      · simp [hw]
      · have hnone : (leWord w bs).getLsbD i = false := getLsbD_leWord (by omega)
        simp [hw, hnone]
    rw [leBytes, hlow, hhigh, ih (by omega)]

variable {s : List (BitVec 8)}

theorem leBytes_readWord (hs : n ≤ s.length) (h : 8 * n ≤ w) :
    leBytes n (readWord w n s).1 = s.take n := by
  have hlen : (s.take n).length = n := List.length_take_of_le hs
  have hback := @leBytes_leWord w (s.take n) (by rwa [hlen])
  rwa [hlen] at hback

theorem toList_readBytes (hs : n ≤ s.length) : (readBytes n s).1.toList = s.take n := by
  apply List.ext_getElem
  · simp [readBytes, hs]
  · intro i h1 h2
    have hi : i < s.length := by
      rw [List.length_take] at h2
      omega
    simp [readBytes, hi]

theorem flatMap_readWords {k : Nat} (hs : n * k ≤ s.length) (h : 8 * n ≤ w) :
    (readWords w n k s).1.toList.flatMap (leBytes n) = s.take (n * k) := by
  induction k generalizing s with
  | zero => rfl
  | succ k ih =>
    rw [Nat.mul_succ] at hs
    have hrest := ih (s := s.drop n) (by rw [List.length_drop]; omega)
    have hfirst : leBytes n (leWord w (s.take n)) = s.take n := leBytes_readWord (by omega) h
    rw [readWords, Vector.toList_ofFn] at hrest ⊢
    rw [List.ofFn_succ, List.flatMap_cons, Fin.val_zero, Nat.mul_zero, List.drop_zero, hfirst,
      show n * (k + 1) = n + n * k by rw [Nat.mul_succ, Nat.add_comm], List.take_add, ← hrest]
    simp only [List.drop_drop, Fin.val_succ, Nat.mul_succ, Nat.add_comm]

end LittleEndian
