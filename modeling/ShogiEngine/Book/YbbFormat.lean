import ShogiEngine.Library.LittleEndian
import ShogiEngine.Shogi.PackedSfen

/-!
# The book format

The YBB files of `book/ybb_format.h`: a header, an index of positions in the order of their packed
keys, and the moves of all positions. A file is a list of bytes.

## Main definitions

- `comparePackedSfen`: the order of the index
- `YbbIndexEntry`, `YbbMoveRecord`, with the source's encoders and decoders
- `Move.fromRaw`: the move of a word

## Main results

- `comparePackedSfen_eq`: the order is that of the keys as numbers
- `decode_encodeYbbIndexEntry`, `decode_encodeYbbMoveRecord`: what was written is read back
- `fromRaw_raw`: a move is restored from its word
-/

namespace Shogi

open LittleEndian

/-! ## Moves as words -/

/-- `Move::FromRaw`. A word whose squares or piece are out of range gives some move with other ones. -/
def Move.fromRaw (data : BitVec 16) : Move :=
  let dst := Square.fromIdx (data &&& 0x7F#16).toNat
  let other := ((data >>> 7) &&& 0x7F#16).toNat
  if data &&& kDropFlag ≠ 0#16 then .drop (.fromIdx other) dst
  else if data &&& kPromoteFlag ≠ 0#16 then .promotion (.fromIdx other) dst
  else .normal (.fromIdx other) dst

/-- The source square or the dropped piece of a move, as a number. -/
def Move.other : Move → Nat
  | .normal s _ => s.val
  | .promotion s _ => s.val
  | .drop pt _ => pt.idx

theorem Move.other_lt (m : Move) : m.other < 128 := by
  cases m with
  | normal s t => exact s.isLt.trans (by decide)
  | promotion s t => exact s.isLt.trans (by decide)
  | drop pt t => exact pt.idx_lt.trans (by decide)

/-- The fields of the word of a move. -/
theorem Move.raw_fields (m : Move) :
    (m.raw &&& 0x7F#16).toNat = m.dst.val ∧ ((m.raw >>> 7) &&& 0x7F#16).toNat = m.other ∧
      (m.raw &&& kDropFlag = 0#16 ↔ m.isDrop = false) ∧
      (m.raw &&& kPromoteFlag = 0#16 ↔ m.isPromotion = false) := by
  have hdst : ∀ t : Square, BitVec.ofNat 16 t.val &&& 0x7F#16 = BitVec.ofNat 16 t.val ∧
      (BitVec.ofNat 16 t.val >>> 7) &&& 0x7F#16 = 0#16 ∧ BitVec.ofNat 16 t.val &&& kDropFlag = 0#16 ∧
      BitVec.ofNat 16 t.val &&& kPromoteFlag = 0#16 ∧ (BitVec.ofNat 16 t.val).toNat = t.val := by
    decide +kernel
  have hother : ∀ n : Fin 128, (BitVec.ofNat 16 n.val <<< 7) &&& 0x7F#16 = 0#16 ∧
      ((BitVec.ofNat 16 n.val <<< 7) >>> 7) &&& 0x7F#16 = BitVec.ofNat 16 n.val ∧
      (BitVec.ofNat 16 n.val <<< 7) &&& kDropFlag = 0#16 ∧
      (BitVec.ofNat 16 n.val <<< 7) &&& kPromoteFlag = 0#16 ∧ (BitVec.ofNat 16 n.val).toNat = n.val := by
    decide +kernel
  have hflags : kDropFlag &&& 0x7F#16 = 0#16 ∧ (kDropFlag >>> 7) &&& 0x7F#16 = 0#16 ∧
      kPromoteFlag &&& 0x7F#16 = 0#16 ∧ (kPromoteFlag >>> 7) &&& 0x7F#16 = 0#16 ∧
      kDropFlag &&& kPromoteFlag = 0#16 ∧ kPromoteFlag &&& kDropFlag = 0#16 ∧
      kDropFlag ≠ 0#16 ∧ kPromoteFlag ≠ 0#16 := by
    decide
  obtain ⟨t1, t2, t3, t4, t5⟩ := hdst m.dst
  obtain ⟨o1, o2, o3, o4, o5⟩ := hother ⟨m.other, m.other_lt⟩
  obtain ⟨f1, f2, f3, f4, f5, f6, f7, f8⟩ := hflags
  simp only at o1 o2 o3 o4 o5
  cases m with
  | normal s t =>
    simp only [dst, other, raw, isDrop, isPromotion, BitVec.and_or_distrib_right,
      BitVec.ushiftRight_or_distrib] at *
    simp only [t1, t2, t3, t4, t5, o1, o2, o3, o4, o5, BitVec.or_zero, BitVec.zero_or, true_and]
  | promotion s t =>
    simp only [dst, other, raw, isDrop, isPromotion, BitVec.and_or_distrib_right,
      BitVec.ushiftRight_or_distrib, BitVec.and_self] at *
    simp only [t1, t2, t3, t4, t5, o1, o2, o3, o4, o5, f3, f4, f6, f8, BitVec.or_zero, BitVec.zero_or,
      true_and, Bool.true_eq_false]
  | drop pt t =>
    simp only [dst, other, raw, isDrop, isPromotion, BitVec.and_or_distrib_right,
      BitVec.ushiftRight_or_distrib, BitVec.and_self] at *
    simp only [t1, t2, t3, t4, t5, o1, o2, o3, o4, o5, f1, f2, f5, f7, BitVec.or_zero, BitVec.zero_or,
      true_and, Bool.true_eq_false]

theorem Square.fromIdx_val (s : Square) : Square.fromIdx s.val = s :=
  Fin.ext (Nat.mod_eq_of_lt s.isLt)

/-- A move is restored from its word. -/
theorem Move.fromRaw_raw (m : Move) : fromRaw m.raw = m := by
  obtain ⟨hdst, hother, hdrop, hpromote⟩ := m.raw_fields
  rw [fromRaw, hdst, hother, Square.fromIdx_val]
  simp only [ne_eq, hdrop, hpromote]
  cases m with
  | normal s t => exact congrArg (normal · t) s.fromIdx_val
  | promotion s t => exact congrArg (promotion · t) s.fromIdx_val
  | drop pt t => exact congrArg (drop · t) (PieceType.fromIdx_idx pt)

/-! ## Keys -/

/-- `memcmp` on lists of one length. -/
def memcmp : List (BitVec 8) → List (BitVec 8) → Ordering
  | a :: as, b :: bs => (compare a.toNat b.toNat).then (memcmp as bs)
  | _, _ => .eq

/-- The bytes of a packed position. -/
def PackedSfen.bytes (p : PackedSfen) : List (BitVec 8) := List.ofFn p.data

/-- The packed position that a list of bytes begins with. -/
def PackedSfen.ofBytes (bs : List (BitVec 8)) : PackedSfen := ⟨fun i => bs.getD i 0#8⟩

/-- `ComparePackedSfen`. -/
def comparePackedSfen (lhs rhs : PackedSfen) : Ordering := memcmp lhs.bytes rhs.bytes

/-- Bytes as a number, the highest byte first. -/
def bigEndian : List (BitVec 8) → Nat
  | [] => 0
  | a :: as => a.toNat * 256 ^ as.length + bigEndian as

/-- A packed position as a number. -/
def PackedSfen.key (p : PackedSfen) : Nat := bigEndian p.bytes

section Keys

variable {as bs : List (BitVec 8)} {p q : PackedSfen}

theorem bigEndian_lt (as : List (BitVec 8)) : bigEndian as < 256 ^ as.length := by
  induction as with
  | nil => exact Nat.one_pos
  | cons a as ih =>
    have ha : a.toNat < 256 := a.isLt
    have hmul : (a.toNat + 1) * 256 ^ as.length ≤ 256 * 256 ^ as.length := Nat.mul_le_mul_right _ ha
    rw [bigEndian, List.length_cons, pow_succ, Nat.mul_comm _ 256]
    rw [Nat.succ_mul] at hmul
    omega

/-- A leading digit decides. -/
theorem compare_digits {a b x y B : Nat} (hx : x < B) (hy : y < B) :
    compare (a * B + x) (b * B + y) = (compare a b).then (compare x y) := by
  rcases lt_trichotomy a b with h | h | h
  · have hmul : (a + 1) * B ≤ b * B := Nat.mul_le_mul_right _ h
    rw [Nat.succ_mul] at hmul
    rw [compare_lt_iff_lt.mpr h, compare_lt_iff_lt.mpr (by omega)]
    rfl
  · rw [h, compare_eq_iff_eq.mpr (rfl : b = b)]
    show compare _ _ = compare x y
    rcases lt_trichotomy x y with h | h | h
    · rw [compare_lt_iff_lt.mpr h, compare_lt_iff_lt.mpr (by omega)]
    · rw [h]
      exact (compare_eq_iff_eq.mpr rfl).trans (compare_eq_iff_eq.mpr rfl).symm
    · rw [compare_gt_iff_gt.mpr h, compare_gt_iff_gt.mpr (by omega)]
  · have hmul : (b + 1) * B ≤ a * B := Nat.mul_le_mul_right _ h
    rw [Nat.succ_mul] at hmul
    rw [compare_gt_iff_gt.mpr h, compare_gt_iff_gt.mpr (by omega)]
    rfl

theorem memcmp_eq (h : as.length = bs.length) : memcmp as bs = compare (bigEndian as) (bigEndian bs) := by
  induction as generalizing bs with
  | nil =>
    rw [List.eq_nil_of_length_eq_zero h.symm]
    rfl
  | cons a as ih =>
    cases bs with
    | nil => cases h
    | cons b bs =>
      have h := Nat.succ.inj h
      rw [memcmp, ih h, bigEndian, bigEndian, h]
      exact (compare_digits (h ▸ bigEndian_lt as) (bigEndian_lt bs)).symm

@[simp] theorem PackedSfen.length_bytes (p : PackedSfen) : p.bytes.length = 32 := List.length_ofFn

/-- The order of the index is that of the keys as numbers. -/
theorem comparePackedSfen_eq (p q : PackedSfen) : comparePackedSfen p q = compare p.key q.key :=
  memcmp_eq (by rw [p.length_bytes, q.length_bytes])

theorem bigEndian_inj (h : as.length = bs.length) (heq : bigEndian as = bigEndian bs) : as = bs := by
  induction as generalizing bs with
  | nil => exact (List.eq_nil_of_length_eq_zero h.symm).symm
  | cons a as ih =>
    cases bs with
    | nil => cases h
    | cons b bs =>
      have h := Nat.succ.inj h
      have hcmp := compare_digits (a := a.toNat) (b := b.toNat) (h ▸ bigEndian_lt as) (bigEndian_lt bs)
      rw [bigEndian, bigEndian, h] at heq
      rw [heq, compare_eq_iff_eq.mpr rfl, eq_comm, Ordering.then_eq_eq, compare_eq_iff_eq,
        compare_eq_iff_eq] at hcmp
      rw [BitVec.eq_of_toNat_eq hcmp.1, ih h hcmp.2]

theorem PackedSfen.ofBytes_append (p : PackedSfen) (rest : List (BitVec 8)) :
    ofBytes (p.bytes ++ rest) = p := by
  cases p with
  | mk data =>
    refine congrArg PackedSfen.mk (funext fun i => ?_)
    have hi : i.val < (PackedSfen.bytes ⟨data⟩).length := by
      rw [length_bytes]
      exact i.isLt
    rw [List.getD_append _ _ _ _ hi, List.getD_eq_getElem _ _ hi]
    exact List.getElem_ofFn _

theorem PackedSfen.key_injective : Function.Injective PackedSfen.key := fun p q h => by
  have hbytes : p.bytes = q.bytes := bigEndian_inj (by rw [p.length_bytes, q.length_bytes]) h
  rw [← p.ofBytes_append [], hbytes, q.ofBytes_append]

end Keys

/-! ## Records -/

/-- `kYbbMagic`. -/
def kYbbMagic : List (BitVec 8) :=
  [0x59#8, 0x41#8, 0x4E#8, 0x45#8, 0x2D#8, 0x42#8, 0x49#8, 0x4E#8,
    0x42#8, 0x4F#8, 0x4F#8, 0x4B#8, 0x2D#8, 0x56#8, 0x31#8, 0x00#8]

/-- `kYbbHeaderSize`. -/
def kYbbHeaderSize : Nat := 32

/-- `kYbbIndexRecordSize`. -/
def kYbbIndexRecordSize : Nat := 44

/-- `kYbbFlagMoveDepth`. -/
def kYbbFlagMoveDepth : BitVec 64 := 1#64

/-- `kYbbKnownFlags`. -/
def kYbbKnownFlags : BitVec 64 := kYbbFlagMoveDepth

/-- `YbbIndexEntry`. -/
structure YbbIndexEntry where
  packedSfen : PackedSfen
  movesOffset : BitVec 64
  ply : BitVec 16
  moveCount : BitVec 16

/-- `YbbMoveRecord`; the evaluation is signed. -/
structure YbbMoveRecord where
  move : BitVec 16
  eval : BitVec 16
  depth : BitVec 16
  deriving DecidableEq, Repr

/-- `ReadLe16`. -/
def readLe16 (bytes : List (BitVec 8)) : BitVec 16 := leWord 16 (bytes.take 2)

/-- `ReadLe64`. -/
def readLe64 (bytes : List (BitVec 8)) : BitVec 64 := leWord 64 (bytes.take 8)

/-- `YbbMoveRecordSize`. -/
def ybbMoveRecordSize (flags : BitVec 64) : Nat := if flags &&& kYbbFlagMoveDepth ≠ 0#64 then 6 else 4

/-- `YbbIndexSize`, `none` where it returns `false`. -/
def ybbIndexSize (recordCount : Nat) : Option Nat :=
  if (2 ^ 64 - 1 - kYbbHeaderSize) / kYbbIndexRecordSize < recordCount then none
  else some (kYbbHeaderSize + recordCount * kYbbIndexRecordSize)

/-- `DecodeYbbIndexEntry`. -/
def decodeYbbIndexEntry (bytes : List (BitVec 8)) : YbbIndexEntry :=
  ⟨.ofBytes bytes, readLe64 (bytes.drop 32), readLe16 (bytes.drop 40), readLe16 (bytes.drop 42)⟩

/-- `EncodeYbbIndexEntry`. -/
def encodeYbbIndexEntry (e : YbbIndexEntry) : List (BitVec 8) :=
  e.packedSfen.bytes ++ (leBytes 8 e.movesOffset ++ (leBytes 2 e.ply ++ leBytes 2 e.moveCount))

/-- `DecodeYbbMoveRecord`. -/
def decodeYbbMoveRecord (bytes : List (BitVec 8)) (flags : BitVec 64) : YbbMoveRecord :=
  ⟨readLe16 bytes, readLe16 (bytes.drop 2),
    if flags &&& kYbbFlagMoveDepth ≠ 0#64 then readLe16 (bytes.drop 4) else 0#16⟩

/-- `EncodeYbbMoveRecord`. -/
def encodeYbbMoveRecord (m : YbbMoveRecord) : List (BitVec 8) :=
  leBytes 2 m.move ++ (leBytes 2 m.eval ++ leBytes 2 m.depth)

/-- What `WriteYbbHeader` writes. -/
def ybbHeader (recordCount flags : BitVec 64) : List (BitVec 8) :=
  kYbbMagic ++ (leBytes 8 recordCount ++ leBytes 8 flags)

section Records

variable (rest : List (BitVec 8))

theorem readLe16_append (x : BitVec 16) : readLe16 (leBytes 2 x ++ rest) = x := by
  rw [readLe16, List.take_left' (length_leBytes x), leWord_leBytes_of_le (by decide)]

theorem readLe64_append (x : BitVec 64) : readLe64 (leBytes 8 x ++ rest) = x := by
  rw [readLe64, List.take_left' (length_leBytes x), leWord_leBytes_of_le (by decide)]

@[simp] theorem length_encodeYbbIndexEntry (e : YbbIndexEntry) :
    (encodeYbbIndexEntry e).length = kYbbIndexRecordSize := by
  simp only [encodeYbbIndexEntry, List.length_append, PackedSfen.length_bytes, length_leBytes]
  rfl

@[simp] theorem length_encodeYbbMoveRecord (m : YbbMoveRecord) : (encodeYbbMoveRecord m).length = 6 := by
  simp only [encodeYbbMoveRecord, List.length_append, length_leBytes]

@[simp] theorem length_ybbHeader (recordCount flags : BitVec 64) :
    (ybbHeader recordCount flags).length = kYbbHeaderSize := by
  simp only [ybbHeader, List.length_append, length_leBytes]
  rfl

/-- An entry that was written is read back. -/
theorem decode_encodeYbbIndexEntry (e : YbbIndexEntry) :
    decodeYbbIndexEntry (encodeYbbIndexEntry e ++ rest) = e := by
  have h40 : (e.packedSfen.bytes ++ leBytes 8 e.movesOffset).length = 40 := by
    rw [List.length_append, PackedSfen.length_bytes, length_leBytes]
  have h42 : (e.packedSfen.bytes ++ leBytes 8 e.movesOffset ++ leBytes 2 e.ply).length = 42 := by
    rw [List.length_append, h40, length_leBytes]
  rw [decodeYbbIndexEntry, encodeYbbIndexEntry]
  congr 1
  · rw [List.append_assoc, PackedSfen.ofBytes_append]
  · rw [List.append_assoc, List.drop_left' (PackedSfen.length_bytes _), List.append_assoc, readLe64_append]
  · rw [← List.append_assoc, List.append_assoc, List.drop_left' h40, List.append_assoc, readLe16_append]
  · rw [← List.append_assoc, ← List.append_assoc, List.append_assoc, List.drop_left' h42, readLe16_append]

/-- A record that was written with its depth is read back. -/
theorem decode_encodeYbbMoveRecord (m : YbbMoveRecord) :
    decodeYbbMoveRecord (encodeYbbMoveRecord m ++ rest) kYbbFlagMoveDepth = m := by
  have h4 : (leBytes 2 m.move ++ leBytes 2 m.eval).length = 4 := by
    rw [List.length_append, length_leBytes, length_leBytes]
  rw [decodeYbbMoveRecord, encodeYbbMoveRecord, if_pos (by decide)]
  congr 1
  · rw [List.append_assoc, readLe16_append]
  · rw [List.append_assoc, List.drop_left' (length_leBytes _), List.append_assoc, readLe16_append]
  · rw [← List.append_assoc, List.append_assoc, List.drop_left' h4, readLe16_append]

end Records

end Shogi
