import Mathlib

/-!
# Bit tapes and exact readers

A tape of bits, the words that stand on it, and readers with a cursor. A reader is exact for a code
when it returns a value iff the word of that value stands at the cursor; such readers compose, and
the usual loop that extends a word bit by bit until a dictionary knows it is one of them as long as
the dictionary is prefix-free.

## Main definitions

- `Holds`: a word stands on a tape
- `bitsOf`, `ofBits`: numbers as words, the lowest bit first
- `Exact`: a reader that inverts a code
- `readUntil`: the dictionary loop

## Main results

- `Exact.bind`: two exact readers in sequence
- `PrefixFree.exact`: prefix-free dictionaries are read exactly
-/

namespace BitTape

/-- The word `l` stands on the tape from place `i` on. -/
def Holds (t : Nat → Bool) (i : Nat) (l : List Bool) : Prop :=
  ∀ j (h : j < l.length), t (i + j) = l.get ⟨j, h⟩

section Holds

variable {t : Nat → Bool} {i : Nat} {x : Bool} {l l' : List Bool}

theorem holds_nil : Holds t i [] := fun _ h => absurd h (Nat.not_lt_zero _)

theorem holds_cons : Holds t i (x :: l) ↔ t i = x ∧ Holds t (i + 1) l := by
  constructor
  · intro h
    refine ⟨h 0 (Nat.succ_pos _), fun j hj => ?_⟩
    rw [Nat.add_assoc, Nat.add_comm 1 j]
    exact h (j + 1) (Nat.succ_lt_succ hj)
  · rintro ⟨h0, h⟩ j hj
    cases j with
    | zero => exact h0
    | succ j =>
      rw [← Nat.add_assoc, Nat.add_right_comm]
      exact h j (Nat.lt_of_succ_lt_succ hj)

theorem holds_append : Holds t i (l ++ l') ↔ Holds t i l ∧ Holds t (i + l.length) l' := by
  induction l generalizing i with
  | nil => exact (and_iff_right holds_nil).symm
  | cons x l ih =>
    rw [List.cons_append, holds_cons, ih, holds_cons, and_assoc, List.length_cons,
      Nat.add_right_comm, ← Nat.add_assoc]

/-- Two words at one place of a tape: one of them is a prefix of the other. -/
theorem Holds.prefix_or (h : Holds t i l) (h' : Holds t i l') : l <+: l' ∨ l' <+: l := by
  induction l generalizing i l' with
  | nil => exact Or.inl (List.nil_prefix)
  | cons x l ih =>
    cases l' with
    | nil => exact Or.inr (List.nil_prefix)
    | cons y l' =>
      obtain ⟨hx, hl⟩ := holds_cons.mp h
      obtain ⟨hy, hl'⟩ := holds_cons.mp h'
      cases hx.symm.trans hy
      exact (ih hl hl').imp (fun hp => List.cons_prefix_cons.mpr ⟨rfl, hp⟩)
        fun hp => List.cons_prefix_cons.mpr ⟨rfl, hp⟩

/-- Words of one length at one place agree. -/
theorem Holds.eq_of_length (h : Holds t i l) (h' : Holds t i l') (hlen : l.length = l'.length) :
    l = l' :=
  (h.prefix_or h').elim (·.eq_of_length hlen) fun hp => (hp.eq_of_length hlen.symm).symm

end Holds

/-! ## Numbers -/

/-- The `n` lowest bits of `v`, the lowest first. -/
def bitsOf (v n : Nat) : List Bool := (List.range n).map v.testBit

/-- The number with the given bits, the lowest first. -/
def ofBits : List Bool → Nat
  | [] => 0
  | x :: l => Nat.bit x (ofBits l)

section Numbers

variable {v n : Nat} {x : Bool} {l : List Bool}

@[simp] theorem length_bitsOf : (bitsOf v n).length = n := by
  rw [bitsOf, List.length_map, List.length_range]

theorem ofBits_lt : ofBits l < 2 ^ l.length := by
  induction l with
  | nil => exact Nat.one_pos
  | cons x l ih =>
    rw [ofBits, List.length_cons, Nat.bit_val, Nat.pow_succ]
    have := x.toNat_lt
    omega

theorem testBit_ofBits {i : Nat} : (ofBits l).testBit i = l.getD i false := by
  induction l generalizing i with
  | nil => rw [ofBits, Nat.zero_testBit, List.getD_nil]
  | cons x l ih =>
    cases i with
    | zero => rw [ofBits, Nat.testBit_bit_zero, List.getD_cons_zero]
    | succ i => rw [ofBits, Nat.testBit_bit_succ, ih, List.getD_cons_succ]

/-- A number is made of its bits. -/
theorem ofBits_bitsOf (h : v < 2 ^ n) : ofBits (bitsOf v n) = v := by
  apply Nat.eq_of_testBit_eq
  intro i
  rw [testBit_ofBits]
  by_cases hi : i < n
  · rw [List.getD_eq_getElem _ _ (by simpa using hi)]
    simp only [bitsOf, List.getElem_map, List.getElem_range]
  · rw [List.getD_eq_default _ _ (by simpa using hi)]
    exact (Nat.testBit_lt_two_pow (h.trans_le (Nat.pow_le_pow_right (by decide) (not_lt.mp hi)))).symm

/-- A word is made of the bits of its number. -/
theorem bitsOf_ofBits : bitsOf (ofBits l) l.length = l := by
  apply List.ext_getElem
  · exact length_bitsOf
  · intro i h h'
    simp only [bitsOf, List.getElem_map, List.getElem_range]
    rw [testBit_ofBits, List.getD_eq_getElem _ _ h']

theorem eq_bitsOf_iff (h : v < 2 ^ n) : l = bitsOf v n ↔ l.length = n ∧ ofBits l = v := by
  constructor
  · rintro rfl
    exact ⟨length_bitsOf, ofBits_bitsOf h⟩
  · rintro ⟨rfl, rfl⟩
    exact bitsOf_ofBits.symm

/-- One more bit at the top. -/
theorem ofBits_append_singleton : ofBits (l ++ [x]) = ofBits l ||| x.toNat <<< l.length := by
  apply Nat.eq_of_testBit_eq
  intro i
  rw [Nat.testBit_or, Nat.testBit_shiftLeft, testBit_ofBits, testBit_ofBits]
  rcases Nat.lt_trichotomy i l.length with h | h | h
  · rw [List.getD_append _ _ _ _ h]
    simp [Nat.not_le.mpr h]
  · subst h
    rw [List.getD_append_right _ _ _ _ le_rfl, List.getD_eq_default _ _ le_rfl]
    cases x <;> simp
  · rw [List.getD_append_right _ _ _ _ h.le, List.getD_eq_default l _ h.le,
      List.getD_eq_default _ _ (by simp; omega)]
    have hpos : 1 ≤ i - l.length := Nat.sub_pos_of_lt h
    have : x.toNat < 2 ^ (i - l.length) :=
      x.toNat_lt.trans_le (Nat.pow_le_pow_right Nat.two_pos hpos)
    simp [Nat.testBit_lt_two_pow this]

end Numbers

/-! ## Readers -/

/-- A reader with a cursor. -/
abbrev Reader := StateT Nat Option

section Readers

variable {α β : Type} {t : Nat → Bool} {limit i j : Nat}

/-- From any place within the limit, the reader returns `a` iff `a` is proper and its word stands
there, within the limit. -/
def Exact (t : Nat → Bool) (limit : Nat) (r : Reader α) (code : α → List Bool)
    (ok : α → Prop) : Prop :=
  ∀ i a j, i ≤ limit → (r i = some (a, j) ↔
    ok a ∧ Holds t i (code a) ∧ j = i + (code a).length ∧ j ≤ limit)

/-- A successful sequence of two readers. -/
theorem bind_eq_some {x : Reader α} {f : α → Reader β} {r : β × Nat} :
    (x >>= f) i = some r ↔ ∃ a k, x i = some (a, k) ∧ f a k = some r := by
  change (x i).bind (fun y => f y.1 y.2) = some r ↔ _
  rw [Option.bind_eq_some_iff, Prod.exists]

theorem pure_eq_some {a : α} {r : α × Nat} : (pure a : Reader α) i = some r ↔ (a, i) = r :=
  Option.some_inj

theorem failure_ne_some {r : α × Nat} : ¬ (failure : Reader α) i = some r := fun h => by cases h

/-- An exact reader, then another one from whose values `h` recovers the first. -/
theorem Exact.bind {x : Reader α} {f : α → Reader β} {codeX : α → List Bool} {okX : α → Prop}
    {codeF : α → β → List Bool} {okF : α → β → Prop} (h : β → α) (hx : Exact t limit x codeX okX)
    (hf : ∀ a, okX a → Exact t limit (f a) (codeF a) (okF a))
    (hh : ∀ a b, okX a → okF a b → h b = a) :
    Exact t limit (x >>= f) (fun b => codeX (h b) ++ codeF (h b) b)
      (fun b => okX (h b) ∧ okF (h b) b) := by
  intro i b j hi
  rw [bind_eq_some, List.length_append, holds_append]
  constructor
  · rintro ⟨a, k, hxa, hfa⟩
    obtain ⟨hok, hholds, rfl, hk⟩ := (hx _ _ _ hi).mp hxa
    obtain ⟨hok', hholds', rfl, hlimit⟩ := (hf a hok _ _ _ hk).mp hfa
    obtain rfl := hh a b hok hok'
    exact ⟨⟨hok, hok'⟩, ⟨hholds, hholds'⟩, Nat.add_assoc _ _ _, hlimit⟩
  · rintro ⟨⟨hok, hok'⟩, ⟨hholds, hholds'⟩, rfl, hlimit⟩
    rw [← Nat.add_assoc] at hlimit ⊢
    have hk : i + (codeX (h b)).length ≤ limit := by omega
    exact ⟨h b, i + (codeX (h b)).length, (hx _ _ _ hi).mpr ⟨hok, hholds, rfl, hk⟩,
      (hf _ hok _ _ _ hk).mpr ⟨hok', hholds', rfl, hlimit⟩⟩

/-- Nothing is read. -/
theorem exact_pure {a : α} : Exact t limit (pure a) (fun _ => []) (· = a) := by
  intro i b j hi
  rw [pure_eq_some, Prod.mk.injEq]
  constructor
  · rintro ⟨rfl, rfl⟩
    exact ⟨rfl, holds_nil, rfl, hi⟩
  · rintro ⟨rfl, -, rfl, -⟩
    exact ⟨rfl, rfl⟩

/-- The words matter for proper values only. -/
theorem Exact.congr {r : Reader α} {code code' : α → List Bool} {ok ok' : α → Prop}
    (hr : Exact t limit r code ok) (hok : ∀ a, ok a ↔ ok' a)
    (hcode : ∀ a, ok a → code a = code' a) : Exact t limit r code' ok' := by
  intro i a j hi
  rw [hr i a j hi, ← hok a]
  exact and_congr_right fun ha => by rw [hcode a ha]

end Readers

/-! ## Dictionaries -/

section Dictionary

variable {α : Type} {t : Nat → Bool} {limit : Nat}

/-- Extend the word `l` by at most `n` bits until the dictionary knows it. -/
def readUntil (next : Reader Bool) (dict : List Bool → Option α) : Nat → List Bool → Reader α
  | 0, _ => failure
  | n + 1, l => do
    let x ← next
    (dict (l ++ [x])).elim (readUntil next dict n (l ++ [x])) pure

/-- A dictionary whose entries are the words of the proper values, none of them a prefix of
another. -/
structure PrefixFree (dict : List Bool → Option α) (word : α → List Bool) (ok : α → Prop) :
    Prop where
  dict_iff : ∀ l a, dict l = some a ↔ ok a ∧ l = word a
  prefix_free : ∀ a b, ok a → ok b → word a <+: word b → a = b
  ne_nil : ∀ a, ok a → word a ≠ []

/-- The loop of a dictionary returns the value whose word continues the bits read so far. -/
theorem PrefixFree.readUntil_iff {dict : List Bool → Option α} {word : α → List Bool}
    {ok : α → Prop} (hd : PrefixFree dict word ok) {next : Reader Bool}
    (hnext : Exact t limit next (fun x => [x]) fun _ => True) {n i j : Nat} {l : List Bool} {a : α}
    (hno : ∀ b, ok b → ¬ word b <+: l) (hn : ∀ b, ok b → (word b).length ≤ l.length + n)
    (hi : i ≤ limit) : readUntil next dict n l i = some (a, j) ↔
      ok a ∧ ∃ r, word a = l ++ r ∧ Holds t i r ∧ j = i + r.length ∧ j ≤ limit := by
  induction n generalizing i l with
  | zero =>
    refine iff_of_false failure_ne_some ?_
    rintro ⟨hok, r, hr, -⟩
    refine hno a hok ?_
    have hlen := hn a hok
    have hrlen := congrArg List.length hr
    rw [List.length_append] at hrlen
    rw [hr, List.length_eq_zero_iff.mp (by omega : r.length = 0), List.append_nil]
  | succ n ih =>
    rw [readUntil, bind_eq_some]
    -- the next bit ends the word of a value, or no word ends up to it
    have hstep : ∀ x, ((dict (l ++ [x])).elim (readUntil next dict n (l ++ [x])) pure) (i + 1) =
        some (a, j) ∧ i + 1 ≤ limit ↔
        ok a ∧ ∃ r, word a = l ++ x :: r ∧ Holds t (i + 1) r ∧ j = i + 1 + r.length ∧
          j ≤ limit := by
      intro x
      cases hdict : dict (l ++ [x]) with
      | some b =>
        obtain ⟨hb, hword⟩ := (hd.dict_iff _ _).mp hdict
        refine (and_congr_left' pure_eq_some).trans ?_
        constructor
        · rintro ⟨⟨⟩, hi⟩
          exact ⟨hb, [], hword.symm, holds_nil, rfl, hi⟩
        · rintro ⟨ha, r, hr, -, rfl, hj⟩
          have hcons : word a = word b ++ r := by
            rw [← hword, List.append_assoc]
            exact hr
          cases hd.prefix_free b a hb ha (hcons ▸ List.prefix_append _ _)
          have hnil : r = [] := by simpa using hcons
          subst hnil
          exact ⟨rfl, hj⟩
      | none =>
        have hno' : ∀ b, ok b → ¬ word b <+: l ++ [x] := by
          intro b hb hpre
          rcases List.prefix_concat_iff.mp hpre with h | h
          · rw [(hd.dict_iff _ b).mpr ⟨hb, h.symm⟩] at hdict
            cases hdict
          · exact hno b hb h
        have hn' : ∀ b, ok b → (word b).length ≤ (l ++ [x]).length + n := by
          intro b hb
          have := hn b hb
          rw [List.length_append, List.length_singleton]
          omega
        have hcons : ∀ r, l ++ [x] ++ r = l ++ x :: r := fun r => List.append_assoc l [x] r
        constructor
        · rintro ⟨h, hi⟩
          simpa only [hcons] using (ih hno' hn' hi).mp h
        · rintro ⟨ha, r, hr, hholds, hj, hlimit⟩
          have hi : i + 1 ≤ limit := by omega
          exact ⟨(ih hno' hn' hi).mpr ⟨ha, r, (hcons r).symm ▸ hr, hholds, hj, hlimit⟩, hi⟩
    constructor
    · rintro ⟨x, k, hread, h⟩
      obtain ⟨-, hx, rfl, hk⟩ := (hnext _ _ _ hi).mp hread
      obtain ⟨ha, r, hr, hholds, hj, hlimit⟩ := (hstep x).mp ⟨h, hk⟩
      refine ⟨ha, x :: r, hr, holds_cons.mpr ⟨(holds_cons.mp hx).1, hholds⟩, ?_, hlimit⟩
      rw [hj, List.length_cons]
      omega
    · rintro ⟨ha, r, hr, hholds, hj, hlimit⟩
      cases r with
      | nil =>
        rw [List.append_nil] at hr
        exact absurd (hr ▸ List.prefix_rfl) (hno a ha)
      | cons x r =>
        obtain ⟨hx, hholds⟩ := holds_cons.mp hholds
        rw [List.length_cons] at hj
        obtain ⟨h, hk⟩ := (hstep x).mpr ⟨ha, r, hr, hholds, by omega, hlimit⟩
        exact ⟨x, i + 1, (hnext _ _ _ hi).mpr
          ⟨trivial, holds_cons.mpr ⟨hx, holds_nil⟩, rfl, hk⟩, h⟩

/-- A prefix-free dictionary is read exactly. -/
theorem PrefixFree.exact {dict : List Bool → Option α} {word : α → List Bool} {ok : α → Prop}
    (hd : PrefixFree dict word ok) {next : Reader Bool}
    (hnext : Exact t limit next (fun x => [x]) fun _ => True) {n : Nat}
    (hn : ∀ b, ok b → (word b).length ≤ n) : Exact t limit (readUntil next dict n []) word ok := by
  intro i a j hi
  have hno : ∀ b, ok b → ¬ word b <+: [] := fun b hb h => hd.ne_nil b hb (List.prefix_nil.mp h)
  rw [hd.readUntil_iff hnext hno (fun b hb => (hn b hb).trans (Nat.le_add_left _ _)) hi]
  simp only [List.nil_append, exists_eq_left']

end Dictionary

end BitTape
