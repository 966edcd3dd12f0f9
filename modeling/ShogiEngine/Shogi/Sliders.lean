import ShogiEngine.Shogi.Tables

/-!
# Sliding attacks

The attack functions of the sliding men in `shogi/bitboard.h`, which find the first blocker of
a ray by decrementing a word. A ray towards higher square numbers is a word or a pair of words
as it stands; a ray towards lower ones is read after its bytes have been reversed, which
reverses the order of any two squares that are eight or more apart.

## Main results

- `mem_lanceEffect`, `mem_bishopEffect`, `mem_rookEffect`: the functions return the squares
  that the man reaches over a clear way
-/

namespace Shogi

/-! ## Pairs of words -/

/-- The two words of a 128-bit register. Unlike a bitboard it may have any bit set. -/
@[ext]
structure Words where
  p0 : BitVec 64
  p1 : BitVec 64
  deriving DecidableEq

namespace Words

instance : AndOp Words := ⟨fun a b => ⟨a.p0 &&& b.p0, a.p1 &&& b.p1⟩⟩

instance : OrOp Words := ⟨fun a b => ⟨a.p0 ||| b.p0, a.p1 ||| b.p1⟩⟩

instance : XorOp Words := ⟨fun a b => ⟨a.p0 ^^^ b.p0, a.p1 ^^^ b.p1⟩⟩

/-- `byte_reverse` of the whole register. -/
def byteReverse (w : Words) : Words := ⟨BitTricks.byteSwap w.p1, BitTricks.byteSwap w.p0⟩

/-- `Unpack`: the high words of both registers and the low words of both registers. -/
def unpack (hiIn loIn : Words) : Words × Words := (⟨loIn.p1, hiIn.p1⟩, ⟨loIn.p0, hiIn.p0⟩)

/-- `Decrement`: each column of the two registers is one 128-bit number. -/
def decrement (hiIn loIn : Words) : Words × Words :=
  (⟨BitTricks.borrowFrom hiIn.p0 loIn.p0, BitTricks.borrowFrom hiIn.p1 loIn.p1⟩,
    ⟨loIn.p0 - 1#64, loIn.p1 - 1#64⟩)

/-- Bit `n` of the register. -/
def bit (w : Words) (n : Nat) : Bool :=
  if n < 64 then w.p0.getLsbD n else w.p1.getLsbD (n - 64)

theorem lt_of_bit {w : Words} {n : Nat} (h : w.bit n = true) : n < 128 := by
  simp only [bit] at h
  split at h
  · omega
  · have := BitVec.lt_of_getLsbD h
    omega

theorem bit_or {a b : Words} {n : Nat} : (a ||| b).bit n = (a.bit n || b.bit n) := by
  simp only [bit]
  split
  · exact BitVec.getLsbD_or
  · exact BitVec.getLsbD_or

/-- The place of a bit after its register has been byte-reversed. -/
def revBit (n : Nat) : Nat := 120 - 8 * (n / 8) + n % 8

theorem revBit_lt {n : Nat} (h : n < 128) : revBit n < 128 := by
  simp only [revBit]
  omega

theorem revBit_revBit {n : Nat} (h : n < 128) : revBit (revBit n) = n := by
  simp only [revBit]
  omega

theorem bit_byteReverse {w : Words} {n : Nat} (h : n < 128) :
    w.byteReverse.bit n = w.bit (revBit n) := by
  have hr : revBit n = 120 - 8 * (n / 8) + n % 8 := rfl
  simp only [bit, byteReverse]
  by_cases hn : n < 64
  · rw [if_pos hn, if_neg (by omega), BitTricks.getLsbD_byteSwap _ hn]
    congr 1
    omega
  · rw [if_neg hn, if_pos (by omega), BitTricks.getLsbD_byteSwap _ (by omega)]
    congr 1
    omega

/-- One column of the Qugiy computation: the bits of `mask` up to and including the first one
that is set in `occ`. -/
def firstBlocker (occ mask : Words) : Words :=
  let n := occ &&& mask
  ⟨((n.p0 - 1#64) ^^^ n.p0) &&& mask.p0, (BitTricks.borrowFrom n.p1 n.p0 ^^^ n.p1) &&& mask.p1⟩

theorem bit_firstBlocker {occ mask : Words} {n : Nat} (hn : n < 128) :
    (firstBlocker occ mask).bit n = true ↔
      mask.bit n = true ∧ ∀ k < n, mask.bit k = true → occ.bit k = false := by
  have hand : ∀ i, (occ &&& mask).p0.getLsbD i = (occ.p0.getLsbD i && mask.p0.getLsbD i) :=
    fun i => BitVec.getLsbD_and
  have hand' : ∀ i, (occ &&& mask).p1.getLsbD i = (occ.p1.getLsbD i && mask.p1.getLsbD i) :=
    fun i => BitVec.getLsbD_and
  simp only [bit, firstBlocker]
  by_cases h : n < 64
  · rw [if_pos h, if_pos h, BitVec.xor_comm, BitVec.getLsbD_and,
      BitTricks.getLsbD_xor_sub_one _ _ h, Bool.and_eq_true, decide_eq_true_eq, and_comm]
    refine and_congr_right fun _ => ⟨fun hlow k hk hm => ?_, fun hlow k hk => ?_⟩
    · rw [if_pos (by omega)] at hm ⊢
      have := hlow k hk
      rwa [hand, hm, Bool.and_true] at this
    · have := hlow k hk
      rw [if_pos (by omega), if_pos (by omega)] at this
      rw [hand]
      cases hm : mask.p0.getLsbD k
      · exact Bool.and_false _
      · rw [this hm, Bool.false_and]
  · rw [if_neg h, if_neg h, BitVec.getLsbD_and, BitTricks.getLsbD_borrowFrom_xor _ _ _ (by omega),
      Bool.and_eq_true, decide_eq_true_eq, and_comm, BitTricks.eq_zero_iff_getLsbD]
    refine and_congr_right fun _ => ⟨?_, fun hlow => ⟨fun k hk => ?_, fun k hk => ?_⟩⟩
    · rintro ⟨hz, hlow⟩ k hk hm
      by_cases h64 : k < 64
      · rw [if_pos h64] at hm ⊢
        have := hz k h64
        rwa [hand, hm, Bool.and_true] at this
      · rw [if_neg h64] at hm ⊢
        have := hlow (k - 64) (by omega)
        rwa [hand', hm, Bool.and_true] at this
    · have := hlow k (by omega)
      rw [if_pos hk, if_pos hk] at this
      rw [hand]
      cases hm : mask.p0.getLsbD k
      · exact Bool.and_false _
      · rw [this hm, Bool.false_and]
    · have := hlow (k + 64) (by omega)
      rw [if_neg (by omega), if_neg (by omega), Nat.add_sub_cancel] at this
      rw [hand']
      cases hm : mask.p1.getLsbD k
      · exact Bool.and_false _
      · rw [this hm, Bool.false_and]

end Words

/-! ## Squares as bits of a register -/

/-- The bit of a square in the register of a bitboard. -/
def Square.bitPos (s : Square) : Nat := if s.val < 63 then s.val else s.val + 1

theorem Square.bitPos_of_lt {s : Square} (h : s.val < 63) : s.bitPos = s.val := if_pos h

theorem Square.bitPos_of_ge {s : Square} (h : ¬ s.val < 63) : s.bitPos = s.val + 1 := if_neg h

theorem Square.bitPos_lt (s : Square) : s.bitPos < 128 := by
  have := s.isLt
  simp only [bitPos]
  split <;> omega

theorem Square.bitPos_inj {s t : Square} (h : s.bitPos = t.bitPos) : s = t := by
  apply Fin.ext
  simp only [bitPos] at h
  split at h <;> split at h <;> omega

namespace Bitboard

/-- The words of a bitboard as a register. -/
def words (b : Bitboard) : Words := ⟨b.lo, b.hi⟩

theorem bit_words {b : Bitboard} {s : Square} : b.words.bit s.bitPos = true ↔ s ∈ b := by
  simp only [Words.bit, words]
  by_cases h : s.val < 63
  · rw [Square.bitPos_of_lt h, if_pos (by omega), lo_of_mem h]
  · rw [Square.bitPos_of_ge h, if_neg (by omega), ← hi_of_mem h]
    rfl

theorem exists_of_bit_words {b : Bitboard} {n : Nat} (h : b.words.bit n = true) :
    ∃ s ∈ b, s.bitPos = n := by
  simp only [Words.bit, words] at h
  split at h
  · obtain ⟨hlt, hm⟩ := mem_of_lo h
    exact ⟨_, hm, by simp [Square.bitPos, hlt]⟩
  · obtain ⟨hlt, hm⟩ := mem_of_hi h
    refine ⟨_, hm, ?_⟩
    rw [Square.bitPos_of_ge (by simp)]
    simp only
    omega

private theorem toNat_lt_of_getLsbD {x : BitVec 64} {n : Nat}
    (h : ∀ i, x.getLsbD i = true → i < n) : x.toNat < 2 ^ n := by
  by_contra hge
  obtain ⟨i, hi, hx⟩ := Nat.exists_ge_and_testBit_of_ge_two_pow (not_lt.mp hge)
  exact absurd (h i hx) (by omega)

/-- A register whose bits are all squares is a bitboard. -/
def ofWords (w : Words) (h : ∀ n, w.bit n = true → ∃ s : Square, s.bitPos = n) : Bitboard where
  lo := w.p0
  hi := w.p1
  lo_lt := by
    refine toNat_lt_of_getLsbD fun i hi => ?_
    have h64 := BitVec.lt_of_getLsbD hi
    obtain ⟨s, hs⟩ := h i (by simp [Words.bit, h64, hi])
    simp only [Square.bitPos] at hs
    split at hs <;> omega
  hi_lt := by
    refine toNat_lt_of_getLsbD fun i hi => ?_
    obtain ⟨s, hs⟩ := h (i + 64) (by simp [Words.bit, hi])
    have := s.isLt
    simp only [Square.bitPos] at hs
    split at hs <;> omega

theorem mem_ofWords {w : Words} {h : ∀ n, w.bit n = true → ∃ s : Square, s.bitPos = n}
    {s : Square} : s ∈ ofWords w h ↔ w.bit s.bitPos = true := bit_words.symm

end Bitboard

/-! ## Ray attacks -/

/-- Both columns of the Qugiy computation: a ray towards higher squares as it stands and one
towards lower squares byte-reversed. -/
def qugiy (occ left right : Bitboard) : Words :=
  .byteReverse (.firstBlocker occ.words.byteReverse right.words.byteReverse) |||
    .firstBlocker occ.words left.words

theorem bit_qugiy {occ left right : Bitboard} {n : Nat} :
    (qugiy occ left right).bit n = true ↔
      (∃ t ∈ left, t.bitPos = n ∧ ∀ u ∈ left, u.bitPos < t.bitPos → u ∉ occ) ∨
      ∃ t ∈ right, t.bitPos = n ∧
        ∀ u ∈ right, Words.revBit u.bitPos < Words.revBit t.bitPos → u ∉ occ := by
  have hocc : ∀ u, occ.words.bit u.bitPos = false ↔ u ∉ occ := by
    intro u
    rw [← Bool.not_eq_true, Bitboard.bit_words]
  have hleft : n < 128 → ((Words.firstBlocker occ.words left.words).bit n = true ↔
      ∃ t ∈ left, t.bitPos = n ∧ ∀ u ∈ left, u.bitPos < t.bitPos → u ∉ occ) := by
    intro hn
    rw [Words.bit_firstBlocker hn]
    constructor
    · rintro ⟨hm, hlow⟩
      obtain ⟨t, ht, rfl⟩ := Bitboard.exists_of_bit_words hm
      exact ⟨t, ht, rfl, fun u hu hlt =>
        (hocc u).mp (hlow _ hlt (Bitboard.bit_words.mpr hu))⟩
    · rintro ⟨t, ht, rfl, hlow⟩
      refine ⟨Bitboard.bit_words.mpr ht, fun k hk hm => ?_⟩
      obtain ⟨u, hu, rfl⟩ := Bitboard.exists_of_bit_words hm
      exact (hocc u).mpr (hlow u hu hk)
  have hright : n < 128 → ((Words.byteReverse (.firstBlocker occ.words.byteReverse
      right.words.byteReverse)).bit n = true ↔ ∃ t ∈ right, t.bitPos = n ∧
        ∀ u ∈ right, Words.revBit u.bitPos < Words.revBit t.bitPos → u ∉ occ) := by
    intro hn
    have hrn := Words.revBit_lt hn
    rw [Words.bit_byteReverse hn, Words.bit_firstBlocker hrn, Words.bit_byteReverse hrn,
      Words.revBit_revBit hn]
    constructor
    · rintro ⟨hm, hlow⟩
      obtain ⟨t, ht, rfl⟩ := Bitboard.exists_of_bit_words hm
      refine ⟨t, ht, rfl, fun u hu hlt => ?_⟩
      have hru := Words.revBit_lt u.bitPos_lt
      have := hlow _ hlt (by
        rw [Words.bit_byteReverse hru, Words.revBit_revBit u.bitPos_lt]
        exact Bitboard.bit_words.mpr hu)
      rw [Words.bit_byteReverse hru, Words.revBit_revBit u.bitPos_lt] at this
      exact (hocc u).mp this
    · rintro ⟨t, ht, rfl, hlow⟩
      refine ⟨Bitboard.bit_words.mpr ht, fun k hk hm => ?_⟩
      have hk' : k < 128 := by omega
      rw [Words.bit_byteReverse hk'] at hm ⊢
      obtain ⟨u, hu, hku⟩ := Bitboard.exists_of_bit_words hm
      rw [← hku]
      refine (hocc u).mpr (hlow u hu ?_)
      rwa [hku, Words.revBit_revBit hk']
  constructor
  · intro h
    have hn := Words.lt_of_bit h
    rw [qugiy, Words.bit_or, Bool.or_eq_true, hleft hn, hright hn] at h
    exact h.symm
  · intro h
    have hn : n < 128 := by
      rcases h with ⟨t, -, rfl, -⟩ | ⟨t, -, rfl, -⟩ <;> exact t.bitPos_lt
    rw [qugiy, Words.bit_or, Bool.or_eq_true, hleft hn, hright hn]
    exact h.symm

theorem exists_of_bit_qugiy {occ left right : Bitboard} {n : Nat}
    (h : (qugiy occ left right).bit n = true) : ∃ s : Square, s.bitPos = n := by
  rcases bit_qugiy.mp h with ⟨t, -, ht, -⟩ | ⟨t, -, ht, -⟩ <;> exact ⟨t, ht⟩

theorem mem_ray {d : Int × Int} (hd : d ∈ dirs) {p : Square → Nat} {occ : Bitboard}
    {s t : Square}
    (hp : ∀ u i j, StepsAway d i s u → StepsAway d j s t → (p u < p t ↔ i < j)) :
    (t ∈ makeRayBB s d.1 d.2 ∧ ∀ u ∈ makeRayBB s d.1 d.2, p u < p t → u ∉ occ) ↔
      (∃ k, 1 ≤ k ∧ StepsAway d k s t) ∧ Clear (· ∈ occ) s t := by
  rw [mem_makeRayBB hd]
  refine and_congr_right fun ⟨k, h1, hk⟩ => ?_
  constructor
  · intro h u hu
    obtain ⟨j, h2, h3, hj⟩ := (stepsAway_lt_iff_between hd h1 hk).mpr hu
    exact h u ((mem_makeRayBB hd).mpr ⟨j, h2, hj⟩) ((hp u j k hj hk).mpr h3)
  · intro h u hu hlt
    obtain ⟨j, h2, hj⟩ := (mem_makeRayBB hd).mp hu
    exact h u ((stepsAway_lt_iff_between hd h1 hk).mp ⟨j, h2, (hp u j k hj hk).mp hlt, hj⟩)

/-- A ray towards a higher file meets its squares in the order of the register. -/
theorem bitPos_lt_iff_of_stepsAway {d : Int × Int} (hd : d ∈ dirs) (h1 : d.1 = 1)
    {s t u : Square} {i j : Nat} (hu : StepsAway d i s u) (ht : StepsAway d j s t) :
    u.bitPos < t.bitPos ↔ i < j := by
  obtain ⟨h3, h4⟩ := hu
  obtain ⟨h5, h6⟩ := ht
  have hv := u.val_eq
  have hv' := t.val_eq
  rw [h1] at h3 h5
  have hmono : u.bitPos < t.bitPos ↔ u.val < t.val := by
    simp only [Square.bitPos]
    split <;> split <;> omega
  rw [hmono]
  rcases (abs_le_of_mem_dirs hd).2.1 with e | e | e <;> rw [e] at h4 h6 <;> omega

/-- A ray towards a lower file meets its squares in the order of the reversed register. -/
theorem revBit_lt_iff_of_stepsAway {d : Int × Int} (hd : d ∈ dirs) (h1 : d.1 = -1)
    {s t u : Square} {i j : Nat} (hu : StepsAway d i s u) (ht : StepsAway d j s t) :
    Words.revBit u.bitPos < Words.revBit t.bitPos ↔ i < j := by
  obtain ⟨h3, h4⟩ := hu
  obtain ⟨h5, h6⟩ := ht
  have hv := u.val_eq
  have hv' := t.val_eq
  have hlt := u.isLt
  have hlt' := t.isLt
  rw [h1] at h3 h5
  have hmono : (u.val = t.val ∨ u.val + 8 ≤ t.val ∨ t.val + 8 ≤ u.val) →
      (Words.revBit u.bitPos < Words.revBit t.bitPos ↔ t.val < u.val) := by
    intro h
    simp only [Words.revBit, Square.bitPos]
    split <;> split <;> omega
  rcases (abs_le_of_mem_dirs hd).2.1 with e | e | e <;> rw [e] at h4 h6 <;>
    rw [hmono (by omega)] <;> omega

/-- A pair of opposite rays: the reached squares to which the way is clear. -/
theorem bit_qugiy_rays {occ : Bitboard} {s t : Square} {l r : Int × Int} (hl : l ∈ dirs)
    (hr : r ∈ dirs) (hl1 : l.1 = 1) (hr1 : r.1 = -1) :
    (qugiy occ (makeRayBB s l.1 l.2) (makeRayBB s r.1 r.2)).bit t.bitPos = true ↔
      ((∃ k, 1 ≤ k ∧ StepsAway l k s t) ∨ ∃ k, 1 ≤ k ∧ StepsAway r k s t) ∧
        Clear (· ∈ occ) s t := by
  rw [bit_qugiy, or_and_right]
  refine or_congr ?_ ?_
  · rw [← mem_ray hl fun u i j => bitPos_lt_iff_of_stepsAway hl hl1]
    constructor
    · rintro ⟨t', ht', he, h⟩
      rw [← Square.bitPos_inj he]
      exact ⟨ht', h⟩
    · exact fun h => ⟨t, h.1, rfl, h.2⟩
  · rw [← mem_ray hr (p := fun u => Words.revBit u.bitPos)
      fun u i j => revBit_lt_iff_of_stepsAway hr hr1]
    constructor
    · rintro ⟨t', ht', he, h⟩
      rw [← Square.bitPos_inj he]
      exact ⟨ht', h⟩
    · exact fun h => ⟨t, h.1, rfl, h.2⟩

/-! ### Rooks on a rank and bishops -/

/-- `QugiyRookMask[s]`: the low and the high register of the two ranks rays. -/
def qugiyRookMask (s : Square) : Words × Words :=
  let left := (makeRayBB s 1 0).words
  let right := (makeRayBB s (-1) 0).words
  let (hi, lo) := Words.unpack right.byteReverse left
  (lo, hi)

/-- The registers that `RookRankEffect` computes. -/
def rookRankWords (s : Square) (occ : Bitboard) : Words :=
  let (hi, lo) := Words.unpack occ.words.byteReverse occ.words
  let hi := hi &&& (qugiyRookMask s).2
  let lo := lo &&& (qugiyRookMask s).1
  let (t1, t0) := Words.decrement hi lo
  let t1 := (t1 ^^^ hi) &&& (qugiyRookMask s).2
  let t0 := (t0 ^^^ lo) &&& (qugiyRookMask s).1
  let (hi2, lo2) := Words.unpack t1 t0
  hi2.byteReverse ||| lo2

theorem rookRankWords_eq (s : Square) (occ : Bitboard) :
    rookRankWords s occ = qugiy occ (makeRayBB s 1 0) (makeRayBB s (-1) 0) := rfl

/-- `RookRankEffect`. -/
def rookRankEffect (s : Square) (occ : Bitboard) : Bitboard :=
  .ofWords (rookRankWords s occ) fun _ h => exists_of_bit_qugiy (rookRankWords_eq s occ ▸ h)

/-- `Bitboard256`: two registers side by side. -/
structure Words256 where
  l0 : Words
  l1 : Words

namespace Words256

instance : AndOp Words256 := ⟨fun a b => ⟨a.l0 &&& b.l0, a.l1 &&& b.l1⟩⟩

instance : OrOp Words256 := ⟨fun a b => ⟨a.l0 ||| b.l0, a.l1 ||| b.l1⟩⟩

instance : XorOp Words256 := ⟨fun a b => ⟨a.l0 ^^^ b.l0, a.l1 ^^^ b.l1⟩⟩

/-- Each lane is reversed on its own. -/
def byteReverse (w : Words256) : Words256 := ⟨w.l0.byteReverse, w.l1.byteReverse⟩

def unpack (hiIn loIn : Words256) : Words256 × Words256 :=
  let a := Words.unpack hiIn.l0 loIn.l0
  let b := Words.unpack hiIn.l1 loIn.l1
  (⟨a.1, b.1⟩, ⟨a.2, b.2⟩)

def decrement (hiIn loIn : Words256) : Words256 × Words256 :=
  let a := Words.decrement hiIn.l0 loIn.l0
  let b := Words.decrement hiIn.l1 loIn.l1
  (⟨a.1, b.1⟩, ⟨a.2, b.2⟩)

/-- `Merge`: the union of the two lanes. -/
def merge (w : Words256) : Words := w.l0 ||| w.l1

end Words256

/-- `QugiyBishopMask[s]`: the low and the high registers of the four diagonal rays. -/
def qugiyBishopMask (s : Square) : Words256 × Words256 :=
  let lu := (makeRayBB s 1 (-1)).words
  let ld := (makeRayBB s 1 1).words
  let ruRev := (makeRayBB s (-1) (-1)).words.byteReverse
  let rdRev := (makeRayBB s (-1) 1).words.byteReverse
  (⟨⟨lu.p0, ruRev.p0⟩, ⟨ld.p0, rdRev.p0⟩⟩, ⟨⟨lu.p1, ruRev.p1⟩, ⟨ld.p1, rdRev.p1⟩⟩)

/-- The register that `BishopEffect` computes. -/
def bishopWords (s : Square) (occ : Bitboard) : Words :=
  let occ2 : Words256 := ⟨occ.words, occ.words⟩
  let rocc2 : Words256 := ⟨occ.words.byteReverse, occ.words.byteReverse⟩
  let (hi, lo) := Words256.unpack rocc2 occ2
  let hi := hi &&& (qugiyBishopMask s).2
  let lo := lo &&& (qugiyBishopMask s).1
  let (t1, t0) := Words256.decrement hi lo
  let t1 := (t1 ^^^ hi) &&& (qugiyBishopMask s).2
  let t0 := (t0 ^^^ lo) &&& (qugiyBishopMask s).1
  let (hi2, lo2) := Words256.unpack t1 t0
  (hi2.byteReverse ||| lo2).merge

theorem bishopWords_eq (s : Square) (occ : Bitboard) :
    bishopWords s occ = (qugiy occ (makeRayBB s 1 (-1)) (makeRayBB s (-1) (-1)) |||
      qugiy occ (makeRayBB s 1 1) (makeRayBB s (-1) 1)) := rfl

theorem exists_of_bit_bishopWords {s : Square} {occ : Bitboard} {n : Nat}
    (h : (bishopWords s occ).bit n = true) : ∃ t : Square, t.bitPos = n := by
  rw [bishopWords_eq, Words.bit_or, Bool.or_eq_true] at h
  exact h.elim exists_of_bit_qugiy exists_of_bit_qugiy

/-- `BishopEffect`. -/
def bishopEffect (s : Square) (occ : Bitboard) : Bitboard :=
  .ofWords (bishopWords s occ) fun _ h => exists_of_bit_bishopWords h

/-! ### Lances and rooks on a file -/

/-- The way down a file in one word: the bits of `mask` up to the lowest one in `occ`. -/
def wordDown (occ mask : BitVec 64) : BitVec 64 :=
  let mocc := occ &&& mask
  (mocc ^^^ (mocc - 1#64)) &&& mask

/-- The way up a file in one word: the bits of `mask` from the highest one in `occ`. -/
def wordUp (occ mask : BitVec 64) : BitVec 64 :=
  let mocc := occ &&& mask
  (BitVec.allOnes 64 <<< BitTricks.msb (mocc ||| 1#64)) &&& mask

theorem toNat_and_lt {x m : BitVec 64} {n : Nat} (h : m.toNat < 2 ^ n) :
    (x &&& m).toNat < 2 ^ n := by
  rw [BitVec.toNat_and]
  exact Nat.and_lt_two_pow _ h

theorem toNat_wordDown_lt {x m : BitVec 64} {n : Nat} (h : m.toNat < 2 ^ n) :
    (wordDown x m).toNat < 2 ^ n := toNat_and_lt h

theorem toNat_wordUp_lt {x m : BitVec 64} {n : Nat} (h : m.toNat < 2 ^ n) :
    (wordUp x m).toNat < 2 ^ n := toNat_and_lt h

/-- `LanceEffect`. A file lies in one of the two words. -/
def lanceEffect (c : Color) (s : Square) (occ : Bitboard) : Bitboard :=
  let mask := lanceMaskBB s c
  match c with
  | .white =>
    if s.val < kBBSplit then .ofLo (wordDown occ.lo mask.lo) (toNat_wordDown_lt mask.lo_lt)
    else .ofHi (wordDown occ.hi mask.hi) (toNat_wordDown_lt mask.hi_lt)
  | .black =>
    if s.val < kBBSplit then .ofLo (wordUp occ.lo mask.lo) (toNat_wordUp_lt mask.lo_lt)
    else .ofHi (wordUp occ.hi mask.hi) (toNat_wordUp_lt mask.hi_lt)

theorem toNat_or_lt {x y : BitVec 64} {n : Nat} (hx : x.toNat < 2 ^ n) (hy : y.toNat < 2 ^ n) :
    (x ||| y).toNat < 2 ^ n := by
  rw [BitVec.toNat_or]
  exact Nat.or_lt_two_pow hx hy

/-- `RookFileEffect`. -/
def rookFileEffect (s : Square) (occ : Bitboard) : Bitboard :=
  let whiteMask := lanceMaskBB s .white
  let blackMask := lanceMaskBB s .black
  if s.val < kBBSplit then
    .ofLo (wordDown occ.lo whiteMask.lo ||| wordUp occ.lo blackMask.lo)
      (toNat_or_lt (toNat_wordDown_lt whiteMask.lo_lt) (toNat_wordUp_lt blackMask.lo_lt))
  else
    .ofHi (wordDown occ.hi whiteMask.hi ||| wordUp occ.hi blackMask.hi)
      (toNat_or_lt (toNat_wordDown_lt whiteMask.hi_lt) (toNat_wordUp_lt blackMask.hi_lt))

/-- `RookEffect`. -/
def rookEffect (s : Square) (occ : Bitboard) : Bitboard :=
  rookFileEffect s occ ||| rookRankEffect s occ

theorem getLsbD_wordDown {occ mask : BitVec 64} {i : Nat} :
    (wordDown occ mask).getLsbD i = true ↔
      mask.getLsbD i = true ∧ ∀ j < i, mask.getLsbD j = true → occ.getLsbD j = false := by
  simp only [wordDown]
  by_cases hi : i < 64
  · rw [BitVec.getLsbD_and, BitTricks.getLsbD_xor_sub_one _ _ hi, Bool.and_eq_true, and_comm,
      decide_eq_true_eq]
    refine and_congr_right fun _ => ⟨fun h j hj hm => ?_, fun h j hj => ?_⟩
    · have := h j hj
      rwa [BitVec.getLsbD_and, hm, Bool.and_true] at this
    · rw [BitVec.getLsbD_and]
      cases hm : mask.getLsbD j
      · exact Bool.and_false _
      · rw [h j hj hm, Bool.false_and]
  · rw [BitVec.getLsbD_of_ge _ _ (by omega), BitVec.getLsbD_of_ge _ _ (by omega)]
    simp

theorem getLsbD_wordUp {occ mask : BitVec 64} {i : Nat} :
    (wordUp occ mask).getLsbD i = true ↔
      mask.getLsbD i = true ∧ ∀ j, i < j → mask.getLsbD j = true → occ.getLsbD j = false := by
  simp only [wordUp]
  by_cases hi : i < 64
  · rw [BitVec.getLsbD_and, Bool.and_eq_true, BitTricks.getLsbD_allOnes_shiftLeft_msb _ hi,
      and_comm]
    refine and_congr_right fun _ => ⟨fun h j hj hm => ?_, fun h j hj => ?_⟩
    · have := h j hj
      rwa [BitVec.getLsbD_and, hm, Bool.and_true] at this
    · rw [BitVec.getLsbD_and]
      cases hm : mask.getLsbD j
      · exact Bool.and_false _
      · rw [h j hj hm, Bool.false_and]
  · rw [BitVec.getLsbD_of_ge _ _ (by omega), BitVec.getLsbD_of_ge _ _ (by omega)]
    simp

/-- The squares of a file lie in one word. -/
theorem lt_split_iff_of_file_eq {s t : Square} (h : t.file = s.file) :
    t.val < 63 ↔ s.val < 63 := by
  simp only [Square.file] at h
  omega

/-- The squares a lance attacks in terms of its mask. -/
theorem mem_lanceEffect_aux {c : Color} {s t : Square} {occ : Bitboard} :
    t ∈ lanceEffect c s occ ↔ t ∈ lanceMaskBB s c ∧ ∀ u ∈ lanceMaskBB s c,
      (match c with | .white => u < t | .black => t < u) → u ∉ occ := by
  have hfile : ∀ {u}, u ∈ lanceMaskBB s c → u.file = s.file := by
    intro u hu
    rw [mem_lanceMaskBB, reach_iff] at hu
    cases c <;> exact hu.1
  by_cases hs : s.val < 63
  · have hlo : ∀ u, (lanceMaskBB s c).lo.getLsbD u.val = true ↔ u ∈ lanceMaskBB s c := by
      intro u
      by_cases hu : u.val < 63
      · exact Bitboard.lo_of_mem hu
      · refine ⟨fun h => absurd (Bitboard.mem_of_lo h).1 hu, fun h => ?_⟩
        exact absurd ((lt_split_iff_of_file_eq (hfile h)).mpr hs) hu
    have hlow : ∀ P : Nat → Prop, (∀ j, P j → (lanceMaskBB s c).lo.getLsbD j = true →
        occ.lo.getLsbD j = false) ↔ ∀ u ∈ lanceMaskBB s c, P u.val → u ∉ occ := by
      intro P
      constructor
      · intro h u hu hP ho
        have hu63 := (lt_split_iff_of_file_eq (hfile hu)).mpr hs
        have := h u.val hP ((hlo u).mpr hu)
        rw [(Bitboard.lo_of_mem hu63).mpr ho] at this
        cases this
      · intro h j hP hm
        obtain ⟨hj, hmem⟩ := Bitboard.mem_of_lo hm
        rw [← Bool.not_eq_true]
        intro ho
        exact h _ hmem hP (Bitboard.mem_of_lo ho).2
    cases c with
    | white =>
      rw [lanceEffect, if_pos (show s.val < kBBSplit from hs), Bitboard.mem_ofLo, getLsbD_wordDown, hlo]
      exact and_congr_right fun _ => hlow (· < t.val)
    | black =>
      rw [lanceEffect, if_pos (show s.val < kBBSplit from hs), Bitboard.mem_ofLo, getLsbD_wordUp, hlo]
      exact and_congr_right fun _ => hlow (t.val < ·)
  · have hhi : ∀ u : Square, (63 ≤ u.val ∧ (lanceMaskBB s c).hi.getLsbD (u.val - 63) = true) ↔
        u ∈ lanceMaskBB s c := by
      intro u
      by_cases hu : u.val < 63
      · refine ⟨fun h => by omega, fun h => ?_⟩
        exact absurd ((lt_split_iff_of_file_eq (hfile h)).mp hu) hs
      · rw [← Bitboard.hi_of_mem hu]
        exact and_iff_right (by omega)
    have hlow : ∀ P : Nat → Prop, (∀ j, P j → (lanceMaskBB s c).hi.getLsbD j = true →
        occ.hi.getLsbD j = false) ↔ ∀ u ∈ lanceMaskBB s c, P (u.val - 63) → u ∉ occ := by
      intro P
      constructor
      · intro h u hu hP ho
        obtain ⟨hu63, hm⟩ := (hhi u).mpr hu
        have := h (u.val - 63) hP hm
        rw [(Bitboard.hi_of_mem (by omega)).mpr ho] at this
        cases this
      · intro h j hP hm
        obtain ⟨hj, hmem⟩ := Bitboard.mem_of_hi hm
        rw [← Bool.not_eq_true]
        intro ho
        exact h _ hmem (by simpa using hP) (Bitboard.mem_of_hi ho).2
    have hge : ∀ u ∈ lanceMaskBB s c, 63 ≤ u.val := fun u hu => ((hhi u).mpr hu).1
    cases c with
    | white =>
      rw [lanceEffect, if_neg (show ¬ s.val < kBBSplit from hs), Bitboard.mem_ofHi, getLsbD_wordDown, ← and_assoc, hhi]
      refine and_congr_right fun ht => (hlow (· < t.val - 63)).trans ?_
      refine forall_congr' fun u => forall_congr' fun hu => ?_
      have h1 := hge u hu
      have h2 := hge t ht
      rw [show u.val - 63 < t.val - 63 ↔ u < t by rw [Fin.lt_def]; omega]
    | black =>
      rw [lanceEffect, if_neg (show ¬ s.val < kBBSplit from hs), Bitboard.mem_ofHi, getLsbD_wordUp, ← and_assoc, hhi]
      refine and_congr_right fun ht => (hlow (t.val - 63 < ·)).trans ?_
      refine forall_congr' fun u => forall_congr' fun hu => ?_
      have h1 := hge u hu
      have h2 := hge t ht
      rw [show t.val - 63 < u.val - 63 ↔ t < u by rw [Fin.lt_def]; omega]

/-! ### Meaning -/

/-- A lance attacks the squares ahead of it to which the way is clear. -/
@[simp] theorem mem_lanceEffect {c : Color} {s t : Square} {occ : Bitboard} :
    t ∈ lanceEffect c s occ ↔ Reach .lance c s t ∧ Clear (· ∈ occ) s t := by
  have hbetween : ∀ u, Reach .lance c s t → (Between s u t ↔
      Reach .lance c s u ∧ (match c with | .white => u < t | .black => t < u)) := by
    intro u
    have hv := u.val_eq
    have hv' := t.val_eq
    rw [reach_iff, reach_iff, between_iff]
    cases c <;> simp only [Fin.lt_def] <;> omega
  rw [mem_lanceEffect_aux, mem_lanceMaskBB]
  refine and_congr_right fun ht => ?_
  simp only [mem_lanceMaskBB]
  refine forall_congr' fun u => ?_
  rw [← and_imp, ← hbetween u ht]

theorem mem_rookFileEffect {s t : Square} {occ : Bitboard} :
    t ∈ rookFileEffect s occ ↔ Aligned .file s t ∧ Clear (· ∈ occ) s t := by
  have hunion : rookFileEffect s occ = lanceEffect .white s occ ||| lanceEffect .black s occ := by
    apply Bitboard.ext_mem
    intro u
    by_cases h : s.val < kBBSplit
    · simp only [rookFileEffect, lanceEffect, if_pos h, Bitboard.mem_or, Bitboard.mem_ofLo,
        BitVec.getLsbD_or, Bool.or_eq_true]
    · simp only [rookFileEffect, lanceEffect, if_neg h, Bitboard.mem_or, Bitboard.mem_ofHi,
        BitVec.getLsbD_or, Bool.or_eq_true, and_or_left]
  rw [hunion, Bitboard.mem_or, mem_lanceEffect, mem_lanceEffect, ← or_and_right]
  refine and_congr_left fun _ => ?_
  rw [reach_iff, reach_iff, Aligned, Square.ne_iff_coord]
  simp only [LineKind.inv]
  omega

theorem mem_rookRankEffect {s t : Square} {occ : Bitboard} :
    t ∈ rookRankEffect s occ ↔ Aligned .rank s t ∧ Clear (· ∈ occ) s t := by
  rw [rookRankEffect, Bitboard.mem_ofWords, rookRankWords_eq,
    bit_qugiy_rays (l := (1, 0)) (r := (-1, 0)) (by decide) (by decide) rfl rfl]
  refine and_congr_left fun _ => ?_
  rw [Aligned, Square.ne_iff_coord]
  simp only [StepsAway, IsStep, LineKind.inv]
  constructor
  · rintro (⟨k, h1, h2, h3⟩ | ⟨k, h1, h2, h3⟩) <;> omega
  · rintro ⟨hne, hr⟩
    rcases Nat.lt_or_ge s.file t.file with h | h
    · exact Or.inl ⟨t.file - s.file, by omega, by omega, by omega⟩
    · exact Or.inr ⟨s.file - t.file, by omega, by omega, by omega⟩

/-- A rook attacks along its file and its rank. -/
@[simp] theorem mem_rookEffect (c : Color) {s t : Square} {occ : Bitboard} :
    t ∈ rookEffect s occ ↔ Reach .rook c s t ∧ Clear (· ∈ occ) s t := by
  rw [rookEffect, Bitboard.mem_or, mem_rookFileEffect, mem_rookRankEffect, ← or_and_right]
  refine and_congr_left fun _ => ?_
  rw [reach_iff, Aligned, Aligned, Square.ne_iff_coord]
  simp only [LineKind.inv]
  omega

/-- A bishop attacks along its diagonals. -/
@[simp] theorem mem_bishopEffect (c : Color) {s t : Square} {occ : Bitboard} :
    t ∈ bishopEffect s occ ↔ Reach .bishop c s t ∧ Clear (· ∈ occ) s t := by
  rw [bishopEffect, Bitboard.mem_ofWords, bishopWords_eq, Words.bit_or, Bool.or_eq_true,
    bit_qugiy_rays (l := (1, -1)) (r := (-1, -1)) (by decide) (by decide) rfl rfl,
    bit_qugiy_rays (l := (1, 1)) (r := (-1, 1)) (by decide) (by decide) rfl rfl, ← or_and_right]
  refine and_congr_left fun _ => ?_
  rw [reach_iff]
  simp only [StepsAway, IsStep]
  constructor
  · rintro ((⟨k, h1, h2, h3⟩ | ⟨k, h1, h2, h3⟩) | (⟨k, h1, h2, h3⟩ | ⟨k, h1, h2, h3⟩)) <;> omega
  · rintro ⟨hne, hd⟩
    rcases Nat.lt_or_ge s.file t.file with h | h <;> rcases Nat.lt_or_ge s.rank t.rank with h' | h'
    · exact Or.inr (Or.inl ⟨t.file - s.file, by omega, by omega, by omega⟩)
    · exact Or.inl (Or.inl ⟨t.file - s.file, by omega, by omega, by omega⟩)
    · exact Or.inr (Or.inr ⟨s.file - t.file, by omega, by omega, by omega⟩)
    · exact Or.inl (Or.inr ⟨s.file - t.file, by omega, by omega, by omega⟩)

end Shogi
