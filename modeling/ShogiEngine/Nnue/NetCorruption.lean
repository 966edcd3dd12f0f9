import ShogiEngine.Nnue.NetRoundTrip

/-!
# Changed network files

What `Load` makes of a file after a change of a single byte. The checksums cover the header and the
payload, but not the table of descriptors between them.

## Main definitions

- `SealedBytes`: a header that holds its own checksum
- `TensorDesc.Unused`: the bytes of a descriptor that no query looks at
- `Kept`: what a change leaves as it was

## Main results

- `crc32c_set_ne`: every change of a single byte changes the checksum
- `not_sealedBytes_set`, `payload_eq_of_accepted`: changes of the header and of the payload are found
- `load_set`: what can be changed without notice
- `not_kept_movedTensor`: an offset can be changed without notice
-/

namespace Shogi

namespace Nnue

open LittleEndian CrcRegister

/-- A checksum does not miss a single byte. -/
theorem crc32c_set_ne {l : List Byte} {i : Nat} {b x : Byte} (hx : l[i]? = some x) (hb : b ≠ x)
    (crc : BitVec 32) : crc32c (l.set i b) crc ≠ crc32c l crc := by
  rw [crc32c, crc32c, crcBlocks_eq, crcBlocks_eq, ne_eq, BitVec.not_inj]
  exact foldl_byteStep_set_ne (by decide) (by decide) hx hb _

section Set

variable {s : List Byte} {i n a : Nat} {b : Byte}

theorem take_drop_set (h : i < a ∨ a + n ≤ i) : ((s.set i b).drop a).take n = (s.drop a).take n := by
  rw [List.drop_set]
  split_ifs with hlt
  · rfl
  · exact List.take_set_of_le (by omega)

end Set

/-! ## The header -/

/-- A header with its checksum zeroed. -/
def blanked (l : List Byte) : List Byte := l.take 76 ++ (leBytes 4 0#32 ++ l.drop 80)

/-- The header's checksum is the one of the header with that field zeroed. -/
def SealedBytes (l : List Byte) : Prop :=
  crc32c (blanked l) 0#32 = leWord 32 ((l.drop 76).take 4)

section Header

variable {l s : List Byte} {i : Nat} {b x : Byte}

theorem getElem?_blanked (hlen : 80 ≤ l.length) (hi : i < 76 ∨ 80 ≤ i) : (blanked l)[i]? = l[i]? := by
  have htake : (l.take 76).length = 76 := List.length_take_of_le (by omega)
  obtain hi | hi := hi
  · rw [blanked, List.getElem?_append_left (by omega), List.getElem?_take_of_lt hi]
  · rw [blanked, List.getElem?_append_right (by omega), htake,
      List.getElem?_append_right (by rw [length_leBytes]; omega), length_leBytes, List.getElem?_drop,
      show 80 + (i - 76 - 4) = i by omega]

theorem blanked_set (hlen : 80 ≤ l.length) (hi : i < 76 ∨ 80 ≤ i) :
    blanked (l.set i b) = (blanked l).set i b := by
  have htake : (l.take 76).length = 76 := List.length_take_of_le (by omega)
  obtain hi | hi := hi
  · rw [blanked, blanked, List.take_set, List.drop_set, if_pos (by omega),
      List.set_append_left _ _ (by omega)]
  · rw [blanked, blanked, List.take_set_of_le (by omega), List.drop_set, if_neg (by omega),
      List.set_append_right _ _ (by omega), htake,
      List.set_append_right _ _ (by rw [length_leBytes]; omega), length_leBytes,
      show i - 76 - 4 = i - 80 by omega]

/-- A field that lies in four bytes changes with each of them. -/
theorem leWord_set_ne {l : List Byte} (hlen : l.length = 4) (hx : l[i]? = some x) (hb : b ≠ x) :
    leWord 32 (l.set i b) ≠ leWord 32 l := by
  intro h
  have hset := @leBytes_leWord 32 (l.set i b) (by rw [List.length_set]; omega)
  rw [List.length_set, h, leBytes_leWord (by omega)] at hset
  have hnew : (l.set i b)[i]? = some b :=
    List.getElem?_set_self (List.getElem?_eq_some_iff.mp hx).1
  rw [← hset, hx] at hnew
  exact hb (Option.some.inj hnew).symm

/-- No byte of the header can be changed without notice: the checksum covers all but itself. -/
theorem not_sealedBytes_set (hlen : 80 ≤ l.length) (hx : l[i]? = some x) (hb : b ≠ x)
    (h : SealedBytes l) : ¬ SealedBytes (l.set i b) := by
  intro h'
  unfold SealedBytes at h h'
  by_cases hfield : 76 ≤ i ∧ i < 80
  · have hsame : blanked (l.set i b) = blanked l := by
      rw [blanked, blanked, List.take_set_of_le hfield.1, List.drop_set, if_pos hfield.2]
    have hx' : ((l.drop 76).take 4)[i - 76]? = some x := by
      rw [List.getElem?_take_of_lt (by omega), List.getElem?_drop,
        show 76 + (i - 76) = i by omega, hx]
    have hfour : ((l.drop 76).take 4).length = 4 :=
      List.length_take_of_le (by rw [List.length_drop]; omega)
    rw [hsame, h, List.drop_set, if_neg (by omega), List.take_set] at h'
    exact leWord_set_ne hfour hx' hb h'.symm
  · have hi : i < 76 ∨ 80 ≤ i := by omega
    rw [blanked_set hlen hi, take_drop_set (by omega), ← h] at h'
    exact crc32c_set_ne ((getElem?_blanked hlen hi).trans hx) hb _ h'

end Header

namespace NetHeader

theorem bytes_ofBytes {s : List Byte} (hs : 256 ≤ s.length) : (ofBytes s).bytes = s.take 256 := by
  have h4 : ∀ a, a + 4 ≤ 256 → leBytes 4 (readWord 32 4 (s.drop a)).1 = (s.drop a).take 4 :=
    fun a ha => leBytes_readWord (by rw [List.length_drop]; omega) (by decide)
  have h8 : leBytes 8 (readWord 64 8 (s.drop 64)).1 = (s.drop 64).take 8 :=
    leBytes_readWord (by rw [List.length_drop]; omega) (by decide)
  have hl1 : (readWords 32 4 4 (s.drop 24)).1.toList.flatMap (leBytes 4) = (s.drop 24).take (4 * 4) :=
    flatMap_readWords (by rw [List.length_drop]; omega) (by decide)
  have hmagic : (readBytes 8 s).1.toList = s.take 8 := toList_readBytes (by omega)
  have hreserved : (readBytes 176 (s.drop 80)).1.toList = (s.drop 80).take 176 :=
    toList_readBytes (by rw [List.length_drop]; omega)
  have hsplit : ∀ a n m, (s.drop a).take (n + m) = (s.drop a).take n ++ (s.drop (a + n)).take m := by
    intro a n m
    rw [List.take_add, List.drop_drop]
  have hdrop : ∀ w n (l : List Byte), (readWord w n l).2 = l.drop n := fun _ _ _ => rfl
  have hdrops : ∀ w n k (l : List Byte), (readWords w n k l).2 = l.drop (n * k) := fun _ _ _ _ => rfl
  have hdropb : ∀ n (l : List Byte), (readBytes n l).2 = l.drop n := fun _ _ => rfl
  have hall : s.take 256 = s.take 8 ++ (s.drop 8).take 248 := by rw [← List.take_add]
  rw [hall, hsplit 8 4 244, hsplit 12 4 240, hsplit 16 4 236, hsplit 20 4 232, hsplit 24 16 216,
    hsplit 40 4 212, hsplit 44 4 208, hsplit 48 4 204, hsplit 52 4 200, hsplit 56 4 196,
    hsplit 60 4 192, hsplit 64 8 184, hsplit 72 4 180, hsplit 76 4 176]
  simp only [ofBytes, bytes, hdrop, hdrops, hdropb, List.drop_drop, Nat.reduceAdd, Nat.reduceMul]
  rw [hmagic, h4 8 (by decide), h4 12 (by decide), h4 16 (by decide), h4 20 (by decide), hl1,
    h4 40 (by decide), h4 44 (by decide), h4 48 (by decide), h4 52 (by decide), h4 56 (by decide),
    h4 60 (by decide), h8, h4 72 (by decide), h4 76 (by decide), hreserved]

/-- What precedes the checksum in the header. -/
theorem exists_front (h : NetHeader) : ∃ front : List Byte, front.length = 76 ∧ ∀ c : BitVec 32,
    { h with headerCrc32c := c }.bytes = front ++ (leBytes 4 c ++ h.reserved.toList) := by
  refine ⟨h.magic.toList ++ (leBytes 4 h.version ++ (leBytes 4 h.kind ++ (leBytes 4 h.featureSetId ++
    (leBytes 4 h.bucketTableId ++ (h.l1.toList.flatMap (leBytes 4) ++ (leBytes 4 h.l2 ++
    (leBytes 4 h.l3 ++ (leBytes 4 h.qa ++ (leBytes 4 h.qb ++ (leBytes 4 h.qPst ++
    (leBytes 4 h.nTensors ++ (leBytes 8 h.payloadBytes ++ leBytes 4 h.payloadCrc32c)))))))))))),
    by simp, fun c => ?_⟩
  simp only [bytes, List.append_assoc]

/-- The test of `Load`, on the bytes. -/
theorem sealedBytes_bytes (h : NetHeader) : SealedBytes h.bytes ↔
    crc32c { h with headerCrc32c := 0#32 }.bytes 0#32 = h.headerCrc32c := by
  obtain ⟨front, hlen, hbytes⟩ := h.exists_front
  have hself : h.bytes = front ++ (leBytes 4 h.headerCrc32c ++ h.reserved.toList) :=
    hbytes h.headerCrc32c
  have hdrop : h.bytes.drop 80 = h.reserved.toList := by
    rw [hself, ← List.append_assoc, List.drop_left' (by rw [List.length_append, hlen, length_leBytes])]
  rw [SealedBytes, blanked, hdrop, hbytes 0#32, hself, List.take_left' hlen, List.drop_left' hlen,
    List.take_left' (length_leBytes _), leWord_leBytes_of_le (by decide)]

/-- A header that is read from sealed bytes does not look at what follows. -/
theorem ofBytes_eq {s t : List Byte} (hs : 256 ≤ s.length) (ht : 256 ≤ t.length)
    (h : s.take 256 = t.take 256) : ofBytes s = ofBytes t := by
  have hself := ofBytes_bytes (ofBytes s) []
  have hother := ofBytes_bytes (ofBytes t) []
  rw [bytes_ofBytes hs] at hself
  rw [bytes_ofBytes ht, ← h] at hother
  exact hself.symm.trans hother

end NetHeader

/-! ## The descriptors -/

namespace TensorDesc

variable {t : List Byte} {j : Nat} {b : Byte} {d d' : TensorDesc}

theorem ofBytes_eq (t : List Byte) : ofBytes t =
    ⟨.ofFn fun i => t.getD i 0#8, leWord 32 ((t.drop 16).take 4), leWord 32 ((t.drop 20).take 4),
      .ofFn fun i => leWord 64 ((t.drop (24 + 8 * i)).take 8), leWord 64 ((t.drop 48).take 8),
      .ofFn fun i => (t.drop 56).getD i 0#8⟩ := by
  simp only [ofBytes, readBytes, readWord, readWords, List.drop_drop, Nat.reduceAdd, Nat.reduceMul]

theorem toList_name_ofBytes (ht : 64 ≤ t.length) : (ofBytes t).name.toList = t.take 16 :=
  toList_readBytes (by omega)

/-- A descriptor takes 64 bytes. -/
theorem ofBytes_set_of_le (h : 64 ≤ j) : ofBytes (t.set j b) = ofBytes t := by
  have hget : ∀ i : Nat, i < 64 → (t.set j b).getD i 0#8 = t.getD i 0#8 := by
    intro i hi
    rw [List.getD_eq_getElem?_getD, List.getD_eq_getElem?_getD, List.getElem?_set_ne (by omega)]
  have hshape : ∀ i : Fin 3, ((t.set j b).drop (24 + 8 * i)).take 8 = (t.drop (24 + 8 * i)).take 8 :=
    fun i => take_drop_set (by omega)
  have hname : ∀ i : Fin 16, (t.set j b).getD i 0#8 = t.getD i 0#8 := fun i => hget i (by omega)
  have hreserved : ∀ i : Fin 8, ((t.set j b).drop 56).getD i 0#8 = (t.drop 56).getD i 0#8 := by
    intro i
    have hi := hget (56 + i) (by omega)
    rwa [List.getD_eq_getElem?_getD, List.getD_eq_getElem?_getD, ← List.getElem?_drop,
      ← List.getElem?_drop, ← List.getD_eq_getElem?_getD, ← List.getD_eq_getElem?_getD] at hi
  rw [ofBytes_eq, ofBytes_eq, take_drop_set (by omega), take_drop_set (by omega),
    take_drop_set (by omega)]
  simp only [hname, hshape, hreserved]

/-- One descriptor of the table changes. -/
theorem readAll_set {n : Nat} (t : List Byte) (j : Nat) : readAll n (t.set j b) =
    (readAll n t).set (j / 64) (ofBytes ((t.drop (64 * (j / 64))).set (j % 64) b)) := by
  induction n generalizing t j with
  | zero => rfl
  | succ n ih =>
    rw [readAll, readAll]
    by_cases hj : j < 64
    · rw [Nat.div_eq_of_lt hj, Nat.mod_eq_of_lt hj, List.set_cons_zero, Nat.mul_zero, List.drop_zero,
        List.drop_set, if_pos hj]
    · obtain ⟨k, rfl⟩ : ∃ k, j = k + 64 := ⟨j - 64, by omega⟩
      rw [Nat.add_div_right _ (by decide), Nat.add_mod_right, List.set_cons_succ,
        ofBytes_set_of_le (by omega), List.drop_set, if_neg hj, Nat.add_sub_cancel, ih,
        List.drop_drop, Nat.mul_succ, Nat.add_comm (64 * (k / 64))]

/-- Two descriptors that answer all queries in the same way. -/
structure SameQuery (d d' : TensorDesc) : Prop where
  name : ∀ name, strncmpEq 16 d'.name.toList name = strncmpEq 16 d.name.toList name
  dtype : d'.dtype = d.dtype
  rank : d'.rank = d.rank
  shape : d'.shape.toList.take d.rank.toNat = d.shape.toList.take d.rank.toNat
  offset : d'.offset = d.offset

/-- The bytes that no query looks at: behind the end of the name, in the sizes beyond the rank, and the
reserved ones. -/
def Unused (d : TensorDesc) (j : Nat) : Prop :=
  (j < 16 ∧ ∃ k < j, d.name.toList[k]? = some 0#8) ∨ (24 + 8 * d.rank.toNat ≤ j ∧ j < 48) ∨ 56 ≤ j

/-- `strncmp` stops at a zero. -/
theorem strncmpEq_set {n k : Nat} {l name : List Byte} (hk : k < j) (hzero : l[k]? = some 0#8) :
    strncmpEq n (l.set j b) name = strncmpEq n l name := by
  induction n generalizing l k j name with
  | zero => rfl
  | succ n ih =>
    obtain ⟨j, rfl⟩ : ∃ i, j = i + 1 := ⟨j - 1, by omega⟩
    cases l with
    | nil => cases hzero
    | cons y l =>
      rw [List.set_cons_succ, strncmpEq, strncmpEq, List.headD_cons, List.headD_cons, List.tail_cons,
        List.tail_cons]
      cases k with
      | zero =>
        obtain rfl : y = 0#8 := Option.some.inj hzero
        rw [decide_eq_true (rfl : (0#8 : Byte) = 0#8), Bool.true_or, Bool.true_or]
      | succ k => rw [ih (Nat.lt_of_succ_lt_succ hk) hzero]

theorem sameQuery_set (ht : 64 ≤ t.length) (h : (ofBytes t).Unused j) :
    SameQuery (ofBytes t) (ofBytes (t.set j b)) := by
  have hname : ∀ name, strncmpEq 16 (ofBytes (t.set j b)).name.toList name =
      strncmpEq 16 (ofBytes t).name.toList name := by
    intro name
    rw [toList_name_ofBytes (by rwa [List.length_set]), toList_name_ofBytes ht, List.take_set]
    by_cases hj : 16 ≤ j
    · rw [List.set_eq_of_length_le (by rw [List.length_take]; omega)]
    · obtain ⟨-, k, hk, hzero⟩ : j < 16 ∧ ∃ k < j, (ofBytes t).name.toList[k]? = some 0#8 := by
        refine h.resolve_right fun h => ?_
        omega
      rw [toList_name_ofBytes ht] at hzero
      exact strncmpEq_set hk hzero
  have hrank : (ofBytes (t.set j b)).rank = (ofBytes t).rank := by
    rw [ofBytes_eq, ofBytes_eq]
    refine congrArg (leWord 32) (take_drop_set ?_)
    obtain ⟨h, -⟩ | h | h := h
    all_goals omega
  refine ⟨hname, ?_, hrank, ?_, ?_⟩
  · rw [ofBytes_eq, ofBytes_eq]
    refine congrArg (leWord 32) (take_drop_set ?_)
    obtain ⟨h, -⟩ | h | h := h
    all_goals omega
  · apply List.ext_getElem?
    intro i
    rw [List.getElem?_take, List.getElem?_take]
    split_ifs with hi
    · rw [ofBytes_eq, ofBytes_eq, Vector.toList_ofFn, Vector.toList_ofFn, List.getElem?_ofFn,
        List.getElem?_ofFn]
      split_ifs with hi3
      · refine congrArg (fun l => some (leWord 64 l)) (take_drop_set ?_)
        obtain ⟨h, -⟩ | h | h := h
        all_goals
          change j < 24 + 8 * i ∨ 24 + 8 * i + 8 ≤ j
          omega
      · rfl
    · rfl
  · rw [ofBytes_eq, ofBytes_eq]
    refine congrArg (leWord 64) (take_drop_set ?_)
    obtain ⟨h, -⟩ | h | h := h
    all_goals omega

end TensorDesc

/-! ## Queries -/

section Queries

variable {l : List TensorDesc} {k : Nat} {d' : TensorDesc} {name : List Byte} {dtype : DType}
  {shape : List (BitVec 64)}

theorem zip_take (a c : List (BitVec 64)) : a.zip (c.take a.length) = a.zip c := by
  induction a generalizing c with
  | nil => rfl
  | cons x a ih =>
    cases c with
    | nil => rfl
    | cons y c => rw [List.length_cons, List.take_succ_cons, List.zip_cons_cons, List.zip_cons_cons, ih]

/-- A query for another name passes by. -/
theorem tensorAmong_set_of_name (hd : ∀ d, l[k]? = some d → strncmpEq 16 d.name.toList name = false)
    (hd' : strncmpEq 16 d'.name.toList name = false) :
    NetFile.tensorAmong name dtype shape (l.set k d') = NetFile.tensorAmong name dtype shape l := by
  induction l generalizing k with
  | nil => rfl
  | cons d l ih =>
    cases k with
    | zero =>
      rw [List.set_cons_zero, NetFile.tensorAmong, NetFile.tensorAmong, hd', hd d rfl]
      rfl
    | succ k => rw [List.set_cons_succ, NetFile.tensorAmong, NetFile.tensorAmong, ih hd]

theorem tensorAmong_set_of_same (hd : ∀ d, l[k]? = some d → d.SameQuery d') :
    NetFile.tensorAmong name dtype shape (l.set k d') = NetFile.tensorAmong name dtype shape l := by
  induction l generalizing k with
  | nil => rfl
  | cons d l ih =>
    cases k with
    | zero =>
      have hsame := hd d rfl
      rw [List.set_cons_zero, NetFile.tensorAmong, NetFile.tensorAmong, hsame.name, hsame.dtype,
        hsame.rank, hsame.offset]
      by_cases hrank : d.rank.toNat = shape.length
      · have hshape := hsame.shape
        rw [hrank] at hshape
        rw [← zip_take shape d'.shape.toList, hshape, zip_take]
      · simp only [ne_eq, hrank, not_false_eq_true, if_true]
    | succ k => rw [List.set_cons_succ, NetFile.tensorAmong, NetFile.tensorAmong, ih hd]

end Queries

/-! ## Changed files -/

/-- What a change at byte `i` leaves as it was. It lies in the table of descriptors, or behind all that is
read; queries for other names are answered as before, and all queries if the byte is one that no query
looks at. -/
structure Kept (i : Nat) (f f' : NetFile) : Prop where
  header : f'.header = f.header
  payload : f'.payload = f.payload
  descs : ∃ d, f'.descs = f.descs.set ((i - 256) / 64) d
  place : i < 256 + 64 * f.descs.length ∨ 256 + 64 * f.descs.length + f.payload.length ≤ i
  otherName : ∀ name, (∀ d, f.descs[(i - 256) / 64]? = some d ∨ f'.descs[(i - 256) / 64]? = some d →
    strncmpEq 16 d.name.toList name = false) →
    ∀ dtype shape, f'.tensor name dtype shape = f.tensor name dtype shape
  unused : (∀ d, f.descs[(i - 256) / 64]? = some d → d.Unused ((i - 256) % 64)) →
    ∀ name dtype shape, f'.tensor name dtype shape = f.tensor name dtype shape

section Changed

variable {path : String} {s : List Byte} {i : Nat} {b x : Byte} {f f' : NetFile}

theorem length_readAll (n : Nat) (t : List Byte) : (TensorDesc.readAll n t).length = n := by
  induction n generalizing t with
  | zero => rfl
  | succ n ih => rw [TensorDesc.readAll, List.length_cons, ih]

theorem getElem?_readAll {n k : Nat} (hk : k < n) (t : List Byte) :
    (TensorDesc.readAll n t)[k]? = some (.ofBytes (t.drop (64 * k))) := by
  induction n generalizing t k with
  | zero => exact absurd hk (Nat.not_lt_zero k)
  | succ n ih =>
    cases k with
    | zero => rfl
    | succ k =>
      rw [TensorDesc.readAll, List.getElem?_cons_succ, ih (Nat.lt_of_succ_lt_succ hk), List.drop_drop,
        Nat.mul_succ, Nat.add_comm]

theorem Accepted.sealedBytes (h : Accepted path s f) : SealedBytes (s.take 256) := by
  have hcrc := h.headerCrc
  rw [← NetHeader.sealedBytes_bytes, h.header, NetHeader.bytes_ofBytes h.long] at hcrc
  exact hcrc

/-- A changed header is not accepted. -/
theorem Accepted.le_of_set (hs : SealedBytes (s.take 256)) (h : Accepted path (s.set i b) f')
    (hx : s[i]? = some x) (hb : b ≠ x) : 256 ≤ i := by
  by_contra hi
  have hlong := h.long
  rw [List.length_set] at hlong
  have hsealed := h.sealedBytes
  rw [List.take_set] at hsealed
  refine not_sealedBytes_set ?_ ?_ hb hs hsealed
  · rw [List.length_take]
    omega
  · rw [List.getElem?_take_of_lt (by omega), hx]

/-- The descriptor that a change in the table makes. -/
def changedDesc (s : List Byte) (i : Nat) (b : Byte) : TensorDesc :=
  .ofBytes (((s.drop 256).drop (64 * ((i - 256) / 64))).set ((i - 256) % 64) b)

/-- A change in the table is accepted if the new descriptor passes the checks. -/
theorem Accepted.set (h : Accepted path s f) (hlo : 256 ≤ i) (hhi : i < 256 + 64 * f.descs.length)
    (hcheck : NetFile.checkDesc path f.header.payloadBytes (changedDesc s i b) = .ok ()) :
    Accepted path (s.set i b)
      ⟨f.header, f.descs.set ((i - 256) / 64) (changedDesc s i b), f.payload⟩ := by
  have hlen : f.descs.length = f.header.nTensors.toNat := by
    rw [h.descs, length_readAll]
  have htail : ((s.set i b).drop 256).drop (64 * f.header.nTensors.toNat) =
      (s.drop 256).drop (64 * f.header.nTensors.toNat) := by
    rw [List.drop_drop, List.drop_drop, List.drop_set, if_pos (by omega)]
  refine ⟨?_, ?_, ?_, ?_, h.magic, h.version, h.headerCrc, h.count, ?_, ?_, h.payloadCrc, ?_⟩
  · change f.header = _
    rw [h.header]
    exact NetHeader.ofBytes_eq h.long (by rw [List.length_set]; exact h.long)
      (List.take_set_of_le hlo).symm
  · rw [List.drop_set, if_neg (by omega), TensorDesc.readAll_set, ← h.descs, changedDesc]
  · rw [htail, ← h.payload]
  · rw [List.length_set]
    exact h.long
  · rw [List.length_drop, List.length_set, ← List.length_drop]
    exact h.table
  · rw [htail]
    exact h.rest
  · intro d hd
    obtain hold | rfl := List.mem_or_eq_of_mem_set hd
    · exact h.checked d hold
    · exact hcheck

theorem kept_of_accepted (h : Accepted path s f) (h' : Accepted path (s.set i b) f')
    (hx : s[i]? = some x) (hb : b ≠ x) : Kept i f f' := by
  have hi := Accepted.le_of_set h.sealedBytes h' hx hb
  have hheader : f'.header = f.header := by
    rw [h'.header, h.header]
    exact NetHeader.ofBytes_eq h'.long h.long (List.take_set_of_le hi)
  have hdescs : f'.descs = f.descs.set ((i - 256) / 64) (changedDesc s i b) := by
    rw [h'.descs, h.descs, hheader, List.drop_set, if_neg (by omega), TensorDesc.readAll_set,
      changedDesc]
  have hlen : f.descs.length = f.header.nTensors.toNat := by
    rw [h.descs, length_readAll]
  have hpayload : f'.payload = f.payload ∧
      (i < 256 + 64 * f.descs.length ∨ 256 + 64 * f.descs.length + f.payload.length ≤ i) := by
    have hrest : f'.payload =
        (((s.drop 256).set (i - 256) b).drop (64 * f.header.nTensors.toNat)).take
          f.header.payloadBytes.toNat := by
      rw [h'.payload, hheader, List.drop_set, if_neg (by omega)]
    rw [h.length_payload, hlen]
    by_cases htable : i - 256 < 64 * f.header.nTensors.toNat
    · rw [hrest, take_drop_set (Or.inl htable), h.payload]
      exact ⟨rfl, Or.inl (by omega)⟩
    · by_cases hbehind : 64 * f.header.nTensors.toNat + f.header.payloadBytes.toNat ≤ i - 256
      · rw [hrest, take_drop_set (Or.inr hbehind), h.payload]
        exact ⟨rfl, Or.inr (by omega)⟩
      · -- the payload's checksum finds the change
        have hset : f'.payload = f.payload.set (i - 256 - 64 * f.header.nTensors.toNat) b := by
          rw [hrest, List.drop_set, if_neg htable, List.take_set, h.payload]
        have hx' : f.payload[i - 256 - 64 * f.header.nTensors.toNat]? = some x := by
          rw [h.payload, List.getElem?_take_of_lt (by omega), List.getElem?_drop, List.getElem?_drop,
            show 256 + (64 * f.header.nTensors.toNat + (i - 256 - 64 * f.header.nTensors.toNat)) = i by
              omega, hx]
        have hcrc := h'.payloadCrc
        rw [hheader, ← h.payloadCrc, hset] at hcrc
        exact absurd hcrc (crc32c_set_ne hx' hb _)
  refine ⟨hheader, hpayload.1, ⟨_, hdescs⟩, hpayload.2, ?_, ?_⟩
  · intro name hname dtype shape
    rw [NetFile.tensor, NetFile.tensor, hdescs]
    by_cases hk : (i - 256) / 64 < f.descs.length
    · refine tensorAmong_set_of_name (fun d hd => hname d (Or.inl hd)) (hname _ (Or.inr ?_))
      rw [hdescs, List.getElem?_set_self hk]
    · rw [List.set_eq_of_length_le (by omega)]
  · intro hunused name dtype shape
    rw [NetFile.tensor, NetFile.tensor, hdescs]
    refine tensorAmong_set_of_same fun d hd => ?_
    have hk : (i - 256) / 64 < f.header.nTensors.toNat :=
      hlen ▸ (List.getElem?_eq_some_iff.mp hd).1
    have hcurrent := getElem?_readAll hk (s.drop 256)
    rw [← h.descs, hd, Option.some.injEq] at hcurrent
    have hd' := hunused d hd
    rw [hcurrent] at hd' ⊢
    refine TensorDesc.sameQuery_set ?_ hd'
    have htable := h.table
    rw [List.length_drop]
    omega

end Changed

/-- The header that is written holds its checksum. -/
theorem NetWriter.sealedBytes_write (w : NetWriter) (header : NetHeader) :
    SealedBytes ((w.write header).take 256) := by
  rw [write, List.append_assoc, List.take_left' (NetHeader.length_bytes _),
    NetHeader.sealedBytes_bytes]
  rfl

/-- A written file with a single byte changed is rejected if the byte lies in the header, and if the
unchanged file is accepted, then all that is not in the table of descriptors is as it was. -/
theorem NetWriter.load_set (w : NetWriter) (header : NetHeader) (path : String) (i : Nat) (b x : Byte)
    (f' : NetFile) (hx : (w.write header)[i]? = some x) (hb : b ≠ x)
    (hload : NetFile.load path (some ((w.write header).set i b)) = .ok f') :
    256 ≤ i ∧ ∀ f, NetFile.load path (some (w.write header)) = .ok f → Kept i f f' := by
  have h' := load_some_eq_ok.mp hload
  refine ⟨Accepted.le_of_set (w.sealedBytes_write header) h' hx hb, fun f hf => ?_⟩
  exact kept_of_accepted (load_some_eq_ok.mp hf) h' hx hb

/-! ## A tensor that moves -/

namespace NetWriter

/-- Two tensors of one byte each. -/
def twoBytes : List TensorData :=
  [⟨[0x61#8], .i8, [1#64], [1#8]⟩, ⟨[0x62#8], .i8, [1#64], [2#8]⟩]

theorem valid_twoBytes : ∀ t ∈ twoBytes, t.Valid := by
  intro t ht
  simp only [twoBytes, List.mem_cons, List.not_mem_nil, or_false] at ht
  obtain rfl | rfl := ht
  · exact ⟨by decide, by decide, by decide, by decide⟩
  · exact ⟨by decide, by decide, by decide, by decide⟩

/-- The file that is read back. -/
def twoBytesFile : NetFile :=
  ⟨(new.addAll twoBytes).sealed zeroHeader, (layout twoBytes 0#64).map Entry.desc,
    payload (layout twoBytes 0#64)⟩

theorem accepted_twoBytes :
    Accepted "net" ((new.addAll twoBytes).write zeroHeader) twoBytesFile :=
  accepted_write twoBytes zeroHeader "net" (by decide) valid_twoBytes (by decide)

theorem drop_write_twoBytes : ((new.addAll twoBytes).write zeroHeader).drop 256 =
    ((layout twoBytes 0#64).map Entry.desc).flatMap TensorDesc.bytes ++ payload (layout twoBytes 0#64) := by
  rw [write, List.append_assoc, List.drop_left' (NetHeader.length_bytes _)]
  rfl

theorem getElem?_write_twoBytes {i : Nat} (hi : 256 ≤ i) :
    ((new.addAll twoBytes).write zeroHeader)[i]? =
      (((layout twoBytes 0#64).map Entry.desc).flatMap TensorDesc.bytes ++
        payload (layout twoBytes 0#64))[i - 256]? := by
  rw [← drop_write_twoBytes, List.getElem?_drop, show 256 + (i - 256) = i by omega]

theorem changedDesc_twoBytes {i : Nat} {b : Byte} :
    changedDesc ((new.addAll twoBytes).write zeroHeader) i b =
      .ofBytes ((((((layout twoBytes 0#64).map Entry.desc).flatMap TensorDesc.bytes ++
        payload (layout twoBytes 0#64))).drop (64 * ((i - 256) / 64))).set ((i - 256) % 64) b) := by
  rw [changedDesc, drop_write_twoBytes]

/-- A reserved byte is changed. -/
theorem load_set_twoBytes : ∃ f',
    NetFile.load "net" (some (((new.addAll twoBytes).write zeroHeader).set 312 1#8)) = .ok f' ∧
      256 ≤ 312 ∧ ∀ f, NetFile.load "net" (some ((new.addAll twoBytes).write zeroHeader)) = .ok f →
        Kept 312 f f' := by
  have hcheck : NetFile.checkDesc "net" twoBytesFile.header.payloadBytes
      (changedDesc ((new.addAll twoBytes).write zeroHeader) 312 1#8) = .ok () := by
    rw [changedDesc_twoBytes]
    rfl
  have hload := load_some_eq_ok.mpr (accepted_twoBytes.set (by decide) (by decide) hcheck)
  have hx : ((new.addAll twoBytes).write zeroHeader)[312]? = some 0#8 := by
    rw [getElem?_write_twoBytes (by decide)]
    rfl
  exact ⟨_, hload, load_set _ _ _ _ _ _ _ hx (by decide) hload⟩

/-- The offset of the second tensor is changed to that of the first: the file is accepted, and the query
for the second tensor returns the byte of the first. -/
theorem not_kept_movedTensor :
    ((new.addAll twoBytes).write zeroHeader)[368]? = some 64#8 ∧ ∃ f f' p p',
      NetFile.load "net" (some ((new.addAll twoBytes).write zeroHeader)) = .ok f ∧
      NetFile.load "net" (some (((new.addAll twoBytes).write zeroHeader).set 368 0#8)) = .ok f' ∧
      f.tensor [0x62#8] .i8 [1#64] = .ok p ∧ f'.tensor [0x62#8] .i8 [1#64] = .ok p' ∧
      (f.payload.drop p.toNat).take 1 = [2#8] ∧ (f'.payload.drop p'.toNat).take 1 = [1#8] := by
  have hmoved : changedDesc ((new.addAll twoBytes).write zeroHeader) 368 0#8 =
      (TensorData.entry ⟨[0x62#8], .i8, [1#64], [2#8]⟩ 0#64).desc := by
    rw [changedDesc_twoBytes]
    rfl
  have hcheck : NetFile.checkDesc "net" twoBytesFile.header.payloadBytes
      (changedDesc ((new.addAll twoBytes).write zeroHeader) 368 0#8) = .ok () := by
    rw [hmoved]
    rfl
  have haccepted := accepted_twoBytes.set (by decide) (by decide) hcheck
  rw [hmoved] at haccepted
  refine ⟨?_, _, _, 64#64, 0#64, load_some_eq_ok.mpr accepted_twoBytes,
    load_some_eq_ok.mpr haccepted, rfl, rfl, rfl, rfl⟩
  rw [getElem?_write_twoBytes (by decide)]
  rfl

end NetWriter

end Nnue

end Shogi
