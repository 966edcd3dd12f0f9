import ShogiEngine.Nnue.BucketTables
import ShogiEngine.Nnue.NetRoundTrip
import ShogiEngine.Nnue.Simd

/-!
# The policy network

`PolicyNet::Load`, the hidden vector and the readout of `nnue/policy_net.cc`, up to the division of the
sum, and when the sum fits in 32 bits.

## Main definitions

- `PolicyNet.load`: the source's function
- `PolicyScratch.computeHidden`, `PolicyScratch.dot`: the hidden vector and the sum for a move
- `PolicyScratch.exactDot`: the sum without a bound
- `wideFile`: a file with a first layer of any width

## Main results

- `hidden_mem`: activations lie between 0 and 4096
- `exact_iff`: the sums fit up to a width of 8192 and no further
-/

namespace Shogi

namespace Nnue

open LittleEndian ShogiBoard

/-! ## Constants and table ids -/

def kNetKindPolicy : BitVec 32 := 2#32

def kQA : Int := 128

def kPolicyShift : Nat := 2

def kPolicyQB : Int := 128

def kNumBucketsSee : Nat := 2 * kNumBuckets

/-- `Fnv1a`. -/
def fnv1a (h : BitVec 32) (data : List Byte) : BitVec 32 :=
  data.foldl (fun h x => (h ^^^ x.setWidth 32) * 16777619#32) h

/-- `FnvInt`. -/
def fnvInt (h : BitVec 32) (v : Int) : BitVec 32 := fnv1a h (leBytes 4 (BitVec.ofInt 32 v))

/-- An array of `int` in memory. -/
def intBytes (l : List Nat) : List Byte := l.flatMap fun v => leBytes 4 (BitVec.ofNat 32 v)

/-- The characters of a name. -/
def asciiBytes (s : String) : List Byte := s.toList.map fun c => BitVec.ofNat 8 c.toNat

/-- `g_offsets_flat`. -/
def offsetsFlat : List Nat :=
  (List.range (kTypeIds * 81)).map plainBefore ++
    (List.range (kTypeIds * 81)).map (fun i => plainBefore (kTypeIds * 81) + promoBefore i) ++
    (List.range kHandKinds).map dropOff

/-- `FeatureSetId`. -/
def featureSetId : BitVec 32 :=
  let h := fnv1a 2166136261#32 (asciiBytes "JHBR5-FS1")
  let h := [kNumSlots, kGroupAInputs, kGroupBInputs, kPolicyInputs, kThreatClasses].foldl
    (fun h v => fnvInt h v) h
  fnv1a h (intBytes ((List.range (kTypeIds * 81)).map pairsBefore))

/-- `BucketTableId`. -/
def bucketTableId (seeDoubling : Bool) : BitVec 32 :=
  let h := fnv1a 2166136261#32 (asciiBytes "JHBR5-MB1")
  let h := fnvInt h kNumBuckets
  let h := fnvInt h (if seeDoubling then 1 else 0)
  let h := fnvInt h kSeeThreshold
  fnv1a h (intBytes offsetsFlat)

/-! ## Loading -/

/-- The bytes from a place in the payload on. -/
def NetFile.bytesAt (f : NetFile) (p : BitVec 64) : Buffer (BitVec 8) :=
  ⟨f.payload.length - p.toNat, fun i => f.payload.getD (p.toNat + i) 0#8⟩

/-- The 16-bit words from a place in the payload on. -/
def NetFile.wordsAt (f : NetFile) (p : BitVec 64) : Buffer (BitVec 16) :=
  ⟨(f.payload.length - p.toNat) / 2, fun i =>
    leWord 16 [f.payload.getD (p.toNat + 2 * i) 0#8, f.payload.getD (p.toNat + 2 * i + 1) 0#8]⟩

/-- `PolicyNet`. -/
structure PolicyNet where
  l1 : Int
  see : Bool
  l1W : Buffer (BitVec 8)
  l1B : Buffer (BitVec 16)
  outW : Buffer (BitVec 8)
  outB : Buffer (BitVec 16)

/-- `num_rows`. -/
def numRows (see : Bool) : Nat := if see then kNumBucketsSee else kNumBuckets

def l1WName : List Byte := asciiBytes "l1_w"

def l1BName : List Byte := asciiBytes "l1_b"

def outWName : List Byte := asciiBytes "out_w"

def outBName : List Byte := asciiBytes "out_b"

/-- The tensors of `Load`. All four are looked up, and the last error is the one that is kept. -/
def PolicyNet.ofTensors (f : NetFile) (l1 : Int) (see : Bool) : Except String PolicyNet :=
  let width := BitVec.ofInt 64 l1
  let rows := BitVec.ofNat 64 (numRows see)
  f.tensor outBName .i16 [rows] >>= fun outB =>
  f.tensor outWName .i8 [rows, width / 2#64] >>= fun outW =>
  f.tensor l1BName .i16 [width] >>= fun l1B =>
  f.tensor l1WName .i8 [BitVec.ofNat 64 kPolicyInputs, width] >>= fun l1W =>
  .ok ⟨l1, see, f.bytesAt l1W, f.wordsAt l1B, f.bytesAt outW, f.wordsAt outB⟩

/-- The header has a first width. -/
theorem l1_nonempty : 0 < 4 := by decide

/-- `Load`. -/
def PolicyNet.load (path : String) (contents : Option (List Byte)) : Except String PolicyNet :=
  NetFile.load path contents >>= fun f =>
  let h := f.header
  let see := h.bucketTableId = bucketTableId true
  let l1 := (h.l1.get ⟨0, l1_nonempty⟩).toInt
  if h.kind ≠ kNetKindPolicy then .error (path ++ ": not a policy network")
  else if h.featureSetId ≠ featureSetId then .error (path ++ ": feature set id mismatch")
  else if ¬ see ∧ h.bucketTableId ≠ bucketTableId false then
    .error (path ++ ": move bucket table id mismatch")
  else if l1 ≤ 0 ∨ l1.tmod 256 ≠ 0 ∨ h.qa ≠ BitVec.ofInt 32 kQA ∨ h.qb ≠ BitVec.ofInt 32 kPolicyQB then
    .error (path ++ ": unsupported policy-net dimensions")
  else PolicyNet.ofTensors f l1 see

/-! ## The readout -/

/-- `PolicyScratch`. -/
structure PolicyScratch where
  acc : Buffer (BitVec 16)
  hl : Buffer (BitVec 16)

namespace PolicyScratch

/-- The sizes of the constructor. -/
structure Sized (net : PolicyNet) (s : PolicyScratch) : Prop where
  acc : s.acc.len = net.l1.toNat
  hl : s.hl.len = net.l1.toNat / 2

/-- `ComputeHidden`. -/
def computeHidden (net : PolicyNet) (s : PolicyScratch) (b : ShogiBoard) : Option PolicyScratch := do
  let n := net.l1.toNat
  let acc ← Simd.Scalar.copyBias s.acc net.l1B n
  let acc ← Simd.Scalar.updateRows acc n net.l1W n (policyFeatures b) []
  let hl ← Simd.Scalar.pairwiseMul acc n kQA kPolicyShift s.hl
  return ⟨acc, hl⟩

/-- `row`. -/
def row (net : PolicyNet) (bucket : Nat) : Buffer (BitVec 8) :=
  let half := net.l1.toNat / 2
  ⟨net.outW.len - bucket * half, fun i => net.outW.cell (bucket * half + i)⟩

/-- `Bucket`. -/
def bucket (net : PolicyNet) (b : ShogiBoard) (m : Move) : Nat :=
  if net.see then moveBucketSee b m else moveBucket b m

/-- `dot` in `Logit`. -/
def dot (net : PolicyNet) (s : PolicyScratch) (b : ShogiBoard) (m : Move) : Option (BitVec 32) :=
  Simd.Scalar.dotI16I8 s.hl (row net (bucket net b m)) (net.l1.toNat / 2)

/-- The sum of the first `k` products, without a bound. -/
def exactDot (net : PolicyNet) (s : PolicyScratch) (r k : Nat) : Int :=
  ∑ i ∈ Finset.range k, (s.hl.cell i).toInt * ((row net r).cell i).toInt

end PolicyScratch

/-- For a board and a move, every partial sum of the readout fits in an `int`, and what is returned is the
sum. -/
def PolicyNet.Exact (net : PolicyNet) (b : ShogiBoard) (m : Move) : Prop :=
  ∀ s s' : PolicyScratch, s.Sized net → s.computeHidden net b = some s' →
    (∀ k ≤ net.l1.toNat / 2, Simd.SignedRange 32 (s'.exactDot net (PolicyScratch.bucket net b m) k)) ∧
      ∀ d, s'.dot net b m = some d →
        d.toInt = s'.exactDot net (PolicyScratch.bucket net b m) (net.l1.toNat / 2)

/-! ## Narrow layers -/

section Narrow

variable {net : PolicyNet} {s s' : PolicyScratch} {b : ShogiBoard} {m : Move} {r k : Nat}

/-- A product of clamped lanes, shifted. -/
theorem activation_mem (x y : Int) :
    0 ≤ (BitVec.ofInt 16 ((Simd.Scalar.clamp x 0 kQA * Simd.Scalar.clamp y 0 kQA) >>> kPolicyShift)).toInt ∧
      (BitVec.ofInt 16 ((Simd.Scalar.clamp x 0 kQA * Simd.Scalar.clamp y 0 kQA) >>> kPolicyShift)).toInt ≤
        4096 := by
  obtain ⟨hx, hx'⟩ : 0 ≤ Simd.Scalar.clamp x 0 kQA ∧ Simd.Scalar.clamp x 0 kQA ≤ 128 := Simd.clamp_mem
  obtain ⟨hy, hy'⟩ : 0 ≤ Simd.Scalar.clamp y 0 kQA ∧ Simd.Scalar.clamp y 0 kQA ≤ 128 := Simd.clamp_mem
  have hlo := mul_nonneg hx hy
  have hhi : Simd.Scalar.clamp x 0 kQA * Simd.Scalar.clamp y 0 kQA ≤ 128 * 128 := mul_le_mul hx' hy' hy (by decide)
  have hshift : (Simd.Scalar.clamp x 0 kQA * Simd.Scalar.clamp y 0 kQA) >>> kPolicyShift =
      Simd.Scalar.clamp x 0 kQA * Simd.Scalar.clamp y 0 kQA / 4 := Int.shiftRight_eq_div_pow ..
  rw [hshift]
  generalize Simd.Scalar.clamp x 0 kQA * Simd.Scalar.clamp y 0 kQA = z at hlo hhi ⊢
  have hrange : Simd.SignedRange 16 (z / 4) := ⟨by omega, by omega⟩
  rw [hrange.toInt_ofInt (by decide)]
  omega

/-- The hidden vector lies between 0 and 4096. -/
theorem hidden_mem (h : s.computeHidden net b = some s') :
    ∀ i < net.l1.toNat / 2, 0 ≤ (s'.hl.cell i).toInt ∧ (s'.hl.cell i).toInt ≤ 4096 := by
  obtain ⟨acc, -, h⟩ := Option.bind_eq_some_iff.mp h
  obtain ⟨acc', -, h⟩ := Option.bind_eq_some_iff.mp h
  obtain ⟨hl, hpair, h⟩ := Option.bind_eq_some_iff.mp h
  cases h
  have hkeep := forLoop_inv (fun q (out : Buffer (BitVec 16)) =>
    ∀ i < q, 0 ≤ (out.cell i).toInt ∧ (out.cell i).toInt ≤ 4096) (fun i hi => absurd hi (Nat.not_lt_zero i)) ?_ hpair
  · rw [Nat.add_sub_cancel, Nat.div_one] at hkeep
    exact hkeep
  · intro q out out' hout hpass i hi
    obtain ⟨x, -, hpass⟩ := Option.bind_eq_some_iff.mp hpass
    obtain ⟨y, -, hpass⟩ := Option.bind_eq_some_iff.mp hpass
    rw [Buffer.write] at hpass
    split at hpass
    · cases hpass
      rw [Nat.mul_one]
      dsimp only
      by_cases hq : i = q
      · rw [hq, Function.update_self]
        exact activation_mem _ _
      · rw [Function.update_of_ne hq]
        exact hout i (by omega)
    · cases hpass

/-- A partial sum grows by less than 4096 times 128 with each product. -/
theorem exactDot_mem (hs : ∀ i < net.l1.toNat / 2, 0 ≤ (s.hl.cell i).toInt ∧ (s.hl.cell i).toInt ≤ 4096)
    (hk : k ≤ net.l1.toNat / 2) :
    -(k * 524288 : Int) ≤ s.exactDot net r k ∧ s.exactDot net r k ≤ k * 520192 := by
  induction k with
  | zero => exact ⟨le_rfl, le_rfl⟩
  | succ k ih =>
    obtain ⟨hlo, hhi⟩ := ih (by omega)
    obtain ⟨hx, hx'⟩ := hs k (by omega)
    have hw : -128 ≤ ((PolicyScratch.row net r).cell k).toInt := BitVec.le_toInt _
    have hw' : ((PolicyScratch.row net r).cell k).toInt < 128 := BitVec.toInt_lt
    rw [PolicyScratch.exactDot] at hlo hhi ⊢
    rw [Finset.sum_range_succ]
    generalize (s.hl.cell k).toInt = x at hx hx' ⊢
    generalize ((PolicyScratch.row net r).cell k).toInt = w at hw hw' ⊢
    have h1 : x * (-128) ≤ x * w := mul_le_mul_of_nonneg_left hw hx
    have h2 : x * w ≤ x * 127 := mul_le_mul_of_nonneg_left (by omega) hx
    push_cast
    constructor <;> omega

/-- What the dot product returns is the sum, cut to 32 bits. -/
theorem dot_eq {d : BitVec 32} (h : s.dot net b m = some d) :
    d = BitVec.ofInt 32 (s.exactDot net (PolicyScratch.bucket net b m) (net.l1.toNat / 2)) := by
  rw [PolicyScratch.dot, Simd.Scalar.dotI16I8, Simd.Scalar.dot] at h
  have hkeep := forLoop_inv (s := 0#32) (fun q (sum : BitVec 32) => sum = ∑ i ∈ Finset.range q,
    Simd.product s.hl (PolicyScratch.row net (PolicyScratch.bucket net b m)) i) rfl ?_ h
  · rw [Nat.add_sub_cancel, Nat.div_one, Simd.sum_product_eq] at hkeep
    exact hkeep
  · intro q sum sum' hsum hpass
    obtain ⟨x, hx, hpass⟩ := Option.bind_eq_some_iff.mp hpass
    obtain ⟨y, hy, hpass⟩ := Option.bind_eq_some_iff.mp hpass
    cases hpass
    rw [Nat.mul_one, Buffer.read] at hx hy
    rw [Finset.sum_range_succ, ← hsum, Simd.product]
    split at hx
    · cases hx
      split at hy
      · cases hy
        rfl
      · cases hy
    · cases hx

/-- A layer of at most 8192 inputs cannot overflow. -/
theorem exact_of_le (hle : net.l1 ≤ 8192) (b : ShogiBoard) (m : Move) : net.Exact b m := by
  intro s s' _ hrun
  have hhalf : net.l1.toNat / 2 ≤ 4096 := by omega
  have hrange : ∀ k ≤ net.l1.toNat / 2,
      Simd.SignedRange 32 (s'.exactDot net (PolicyScratch.bucket net b m) k) := by
    intro k hk
    obtain ⟨hlo, hhi⟩ := exactDot_mem (r := PolicyScratch.bucket net b m) (hidden_mem hrun) hk
    exact ⟨by omega, by omega⟩
  refine ⟨hrange, fun d hd => ?_⟩
  rw [dot_eq hd]
  exact (hrange _ le_rfl).toInt_ofInt (by decide)

end Narrow

/-! ## Wide layers -/

/-- The tensors of a network of width `n` whose hidden vector is always the greatest one, and whose
readout weights are. -/
def wideTensors (n : Nat) : List TensorData :=
  [⟨l1WName, .i8, [BitVec.ofNat 64 kPolicyInputs, BitVec.ofNat 64 n], List.replicate (kPolicyInputs * n) 0#8⟩,
    ⟨l1BName, .i16, [BitVec.ofNat 64 n], (List.replicate n [128#8, 0#8]).flatten⟩,
    ⟨outWName, .i8, [BitVec.ofNat 64 kNumBucketsSee, BitVec.ofNat 64 n / 2#64],
      List.replicate (kNumBucketsSee * (n / 2)) 127#8⟩,
    ⟨outBName, .i16, [BitVec.ofNat 64 kNumBucketsSee], List.replicate (2 * kNumBucketsSee) 0#8⟩]

def wideHeader (w : BitVec 32) : NetHeader :=
  { zeroHeader with
    kind := kNetKindPolicy
    featureSetId := featureSetId
    bucketTableId := bucketTableId true
    l1 := #v[w, 0#32, 0#32, 0#32]
    qa := BitVec.ofInt 32 kQA
    qb := BitVec.ofInt 32 kPolicyQB }

/-- The file of that network. -/
def wideFile (w : BitVec 32) : List Byte :=
  (NetWriter.new.addAll (wideTensors w.toNat)).write (wideHeader w)

section Wide

variable {w : BitVec 32} {n : Nat} {f : NetFile} {p : BitVec 64} {data : List Byte} {net : PolicyNet}

/-- Names without zeros and one or two sizes. -/
theorem TensorData.valid_of {t : TensorData} (hname : t.name.length ≤ 15 ∧ ∀ c ∈ t.name, c ≠ 0#8)
    (hrank : t.shape.length = 1 ∨ t.shape.length = 2)
    (hdata : t.data.length = (NetWriter.byteSize t.dtype t.shape).toNat) : t.Valid :=
  ⟨hname.1, hname.2, by omega, hdata⟩

theorem valid_wideTensors (hn : n < 2 ^ 31) : ∀ t ∈ wideTensors n, t.Valid := by
  have hinputs : kPolicyInputs = 9148 := rfl
  have hrows : kNumBucketsSee = 20086 := rfl
  have h1 : dtypeSize DType.i8.code = 1#64 := by decide
  have h2 : dtypeSize DType.i16.code = 2#64 := by decide
  have hnames : ∀ name ∈ [l1WName, l1BName, outWName, outBName], name.length ≤ 15 ∧ ∀ c ∈ name, c ≠ 0#8 := by
    decide
  simp only [wideTensors, List.forall_mem_cons, List.not_mem_nil, false_imp_iff, implies_true, and_true] at hnames ⊢
  obtain ⟨hl1W, hl1B, houtW, houtB⟩ := hnames
  refine ⟨TensorData.valid_of hl1W (Or.inr rfl) ?_, TensorData.valid_of hl1B (Or.inl rfl) ?_,
    TensorData.valid_of houtW (Or.inr rfl) ?_, TensorData.valid_of houtB (Or.inl rfl) ?_⟩
  · simp only [List.length_replicate, NetWriter.byteSize, h1, hinputs, List.take, List.foldl_cons,
      List.foldl_nil, BitVec.toNat_mul, BitVec.toNat_ofNat, Nat.reduceMod, Nat.reduceMul, Nat.reducePow]
    omega
  · simp only [List.length_flatten, List.map_replicate, List.sum_replicate_nat, List.length_cons,
      List.length_nil, NetWriter.byteSize, h2, List.take, List.foldl_cons, List.foldl_nil, BitVec.toNat_mul,
      BitVec.toNat_ofNat, Nat.reduceMod, Nat.reducePow]
    omega
  · simp only [List.length_replicate, NetWriter.byteSize, h1, hrows, List.take, List.foldl_cons,
      List.foldl_nil, BitVec.toNat_mul, BitVec.toNat_udiv, BitVec.toNat_ofNat, Nat.reduceMod, Nat.reduceMul,
      Nat.reducePow]
    omega
  · simp only [List.length_replicate, NetWriter.byteSize, h2, hrows, List.take, List.foldl_cons,
      List.foldl_nil, BitVec.toNat_mul, BitVec.toNat_ofNat, Nat.reduceMod, Nat.reduceMul, Nat.reducePow]

theorem totalSpace_wideTensors (hn : n < 2 ^ 31) : NetWriter.totalSpace (wideTensors n) < 2 ^ 64 := by
  have hinputs : kPolicyInputs = 9148 := rfl
  have hrows : kNumBucketsSee = 20086 := rfl
  simp only [NetWriter.totalSpace, wideTensors, List.map_cons, List.map_nil, List.sum_cons, List.sum_nil,
    TensorData.space, List.length_replicate, List.length_flatten, List.map_replicate, List.sum_replicate_nat,
    List.length_cons, List.length_nil, hinputs, hrows]
  omega

/-- The bytes of a tensor are those that were written. -/
theorem cell_bytesAt {j : Nat} (hdata : (f.payload.drop p.toNat).take data.length = data) (hj : j < data.length) :
    f.payload.getD (p.toNat + j) 0#8 = data.getD j 0#8 := by
  rw [← hdata, List.getD_eq_getElem?_getD, List.getD_eq_getElem?_getD, List.getElem?_take_of_lt hj,
    List.getElem?_drop]

/-- Pairs one after the other. -/
theorem getD_pairs {α : Type} (x y d : α) {n j : Nat} (hj : j < n) :
    (List.replicate n [x, y]).flatten.getD (2 * j) d = x ∧
      (List.replicate n [x, y]).flatten.getD (2 * j + 1) d = y := by
  induction n generalizing j with
  | zero => exact absurd hj (Nat.not_lt_zero j)
  | succ n ih =>
    rw [List.replicate_succ, List.flatten_cons]
    cases j with
    | zero => exact ⟨rfl, rfl⟩
    | succ j => exact ih (Nat.lt_of_succ_lt_succ hj)

/-- What the file holds. -/
structure WideNet (net : PolicyNet) (n : Nat) : Prop where
  l1 : net.l1 = n
  see : net.see = true
  len_l1W : kPolicyInputs * n ≤ net.l1W.len
  len_l1B : n ≤ net.l1B.len
  len_outW : kNumBucketsSee * (n / 2) ≤ net.outW.len
  l1W : ∀ j < kPolicyInputs * n, net.l1W.cell j = 0#8
  l1B : ∀ j < n, net.l1B.cell j = 128#16
  outW : ∀ j < kNumBucketsSee * (n / 2), net.outW.cell j = 127#8

/-- The file is accepted. -/
theorem exists_wideNet (hpos : 0 < w.toInt) (hmod : w.toInt.tmod 256 = 0) :
    ∃ net, PolicyNet.load "net" (some (wideFile w)) = .ok net ∧ WideNet net w.toNat := by
  have hn : w.toNat < 2 ^ 31 ∧ w.toInt = w.toNat := by
    rw [BitVec.toInt_eq_toNat_cond] at hpos ⊢
    split at hpos
    · rw [if_pos ‹_›]
      omega
    · have := w.isLt
      omega
  obtain ⟨hlt, hint⟩ := hn
  have hnames : ((wideTensors w.toNat).map TensorData.name).Nodup := by
    rw [show (wideTensors w.toNat).map TensorData.name = [l1WName, l1BName, outWName, outBName] from rfl]
    decide
  obtain ⟨f, hload, hheader, htensors⟩ := NetWriter.exists_load (wideTensors w.toNat) (wideHeader w) "net"
    ⟨show 1 ≤ 4 by decide, show 4 ≤ 64 by decide⟩ (valid_wideTensors hlt) hnames (totalSpace_wideTensors hlt)
  have hkind : f.header.kind = kNetKindPolicy := congrArg NetHeader.kind hheader
  have hfeature : f.header.featureSetId = featureSetId := by
    simp only [hheader, NetWriter.sealed, wideHeader]
  have hbucket : f.header.bucketTableId = bucketTableId true := by
    simp only [hheader, NetWriter.sealed, wideHeader]
  have hl1 : (f.header.l1.get ⟨0, l1_nonempty⟩).toInt = w.toInt := congrArg (fun h => (h.l1.get ⟨0, l1_nonempty⟩).toInt) hheader
  have hqa : f.header.qa = BitVec.ofInt 32 kQA := congrArg NetHeader.qa hheader
  have hqb : f.header.qb = BitVec.ofInt 32 kPolicyQB := congrArg NetHeader.qb hheader
  have hstep : PolicyNet.load "net" (some (wideFile w)) = PolicyNet.ofTensors f w.toInt true := by
    have hdims : ¬ ((f.header.l1.get ⟨0, l1_nonempty⟩).toInt ≤ 0 ∨ (f.header.l1.get ⟨0, l1_nonempty⟩).toInt.tmod 256 ≠ 0 ∨
        f.header.qa ≠ BitVec.ofInt 32 kQA ∨ f.header.qb ≠ BitVec.ofInt 32 kPolicyQB) := by
      rw [hl1, hqa, hqb, hmod]
      simp only [ne_eq, not_true_eq_false, or_false]
      omega
    rw [PolicyNet.load, wideFile, hload]
    dsimp only [bind, Except.bind]
    rw [if_neg (not_not.mpr hkind), if_neg (not_not.mpr hfeature), if_neg fun h => h.1 hbucket, if_neg hdims,
      hl1, decide_eq_true hbucket]
  simp only [wideTensors, List.forall_mem_cons, List.not_mem_nil, false_imp_iff, implies_true, and_true] at htensors
  obtain ⟨⟨p1, hp1, hend1, hdata1⟩, ⟨p2, hp2, hend2, hdata2⟩, ⟨p3, hp3, hend3, hdata3⟩, p4, hp4, -, -⟩ := htensors
  have hnet : PolicyNet.ofTensors f w.toInt true =
      .ok ⟨w.toInt, true, f.bytesAt p1, f.wordsAt p2, f.bytesAt p3, f.wordsAt p4⟩ := by
    rw [PolicyNet.ofTensors, hint, BitVec.ofInt_natCast, show numRows true = kNumBucketsSee from rfl, hp4, hp3, hp2,
      hp1]
    rfl
  have hlen1 : (List.replicate (kPolicyInputs * w.toNat) 0#8).length = kPolicyInputs * w.toNat :=
    List.length_replicate
  have hlen2 : ((List.replicate w.toNat [128#8, 0#8]).flatten).length = w.toNat * 2 := by
    rw [List.length_flatten, List.map_replicate, List.sum_replicate_nat]
    rfl
  have hlen3 : (List.replicate (kNumBucketsSee * (w.toNat / 2)) 127#8).length = kNumBucketsSee * (w.toNat / 2) :=
    List.length_replicate
  refine ⟨_, hstep.trans hnet, hint, rfl, ?_, ?_, ?_, ?_, ?_, ?_⟩
  · rw [hlen1] at hend1
    exact Nat.le_sub_of_add_le' hend1
  · rw [hlen2] at hend2
    show w.toNat ≤ (f.payload.length - p2.toNat) / 2
    omega
  · rw [hlen3] at hend3
    exact Nat.le_sub_of_add_le' hend3
  · intro j hj
    refine (cell_bytesAt hdata1 (hlen1.symm ▸ hj)).trans ?_
    rw [List.getD_replicate _ hj]
  · intro j hj
    show leWord 16 [f.payload.getD (p2.toNat + 2 * j) 0#8, f.payload.getD (p2.toNat + 2 * j + 1) 0#8] = 128#16
    obtain ⟨hfirst, hsecond⟩ := getD_pairs 128#8 0#8 0#8 hj
    rw [cell_bytesAt hdata2 (by omega), Nat.add_assoc, cell_bytesAt hdata2 (by omega), hfirst, hsecond]
    decide
  · intro j hj
    refine (cell_bytesAt hdata3 (hlen3.symm ▸ hj)).trans ?_
    rw [List.getD_replicate _ hj]

/-- Rows of zeros change nothing. -/
theorem rowsLane_zero {base : Buffer (BitVec 8)} {stride j : Nat} {rows : List Nat} {x : BitVec 16}
    (h : ∀ r ∈ rows, base.cell (r * stride + j) = 0#8) : Simd.rowsLane base stride rows [] j x = x := by
  rw [Simd.rowsLane, List.foldl_nil]
  induction rows with
  | nil => rfl
  | cons r rows ih =>
    have hzero : (0#8).signExtend 16 = 0#16 := by decide
    rw [List.foldl_cons, h r List.mem_cons_self, hzero, BitVec.add_zero]
    exact ih fun r hr => h r (List.mem_cons_of_mem _ hr)

/-- The hidden vector of such a network is as large as it can be, whatever the board. -/
theorem computeHidden_wide {s : PolicyScratch} {b : ShogiBoard} (h : WideNet net n) (hs : s.Sized net)
    (hrows : ∀ r ∈ policyFeatures b, r < kPolicyInputs) :
    ∃ s', s.computeHidden net b = some s' ∧ ∀ i < n / 2, s'.hl.cell i = 4096#16 := by
  have hl1 : net.l1.toNat = n := by
    rw [h.l1]
    exact Int.toNat_natCast n
  have hacc : n ≤ s.acc.len := by rw [hs.acc, hl1]
  have hhl : n / 2 ≤ s.hl.len := by rw [hs.hl, hl1]
  have hrow : ∀ r ∈ policyFeatures b, r * n + n ≤ net.l1W.len := by
    intro r hr
    rw [← Nat.succ_mul]
    exact (Nat.mul_le_mul_right n (hrows r hr)).trans h.len_l1W
  have hcopy := Simd.Scalar.copyBias_eq hacc h.len_l1B
  obtain ⟨acc, hdef⟩ : ∃ acc, acc = s.acc.sweep n fun i _ => net.l1B.cell i := ⟨_, rfl⟩
  have hcells : ∀ j < n, acc.cell j = 128#16 := by
    intro j hj
    rw [hdef]
    exact (if_pos hj).trans (h.l1B j hj)
  have hupdate : Simd.Scalar.updateRows acc n net.l1W n (policyFeatures b) [] =
      some (acc.sweep n (Simd.rowsLane net.l1W n (policyFeatures b) [])) :=
    Simd.Scalar.updateRows_eq (by rw [hdef]; exact hacc) hrow fun r hr => absurd hr List.not_mem_nil
  obtain ⟨acc', hdef'⟩ : ∃ acc', acc' = acc.sweep n (Simd.rowsLane net.l1W n (policyFeatures b) []) := ⟨_, rfl⟩
  have hcells' : ∀ j < n, acc'.cell j = 128#16 := by
    intro j hj
    rw [hdef']
    refine (if_pos hj).trans ((rowsLane_zero fun r hr => h.l1W _ ?_).trans (hcells j hj))
    have hle := Nat.mul_le_mul_right n (hrows r hr)
    rw [Nat.succ_mul] at hle
    omega
  have hpair : Simd.Scalar.pairwiseMul acc' n kQA kPolicyShift s.hl =
      some (s.hl.sweep (n / 2) fun i _ => Simd.pairLane acc' (n / 2) kQA kPolicyShift i) :=
    Simd.Scalar.pairwiseMul_eq (by rw [hdef', hdef]; exact hacc) hhl
  refine ⟨⟨acc', s.hl.sweep (n / 2) fun i _ => Simd.pairLane acc' (n / 2) kQA kPolicyShift i⟩, ?_, ?_⟩
  · rw [PolicyScratch.computeHidden, hl1, hcopy, ← hdef, Option.bind_eq_bind, Option.bind_some, hupdate,
      ← hdef', Option.bind_some, hpair]
    rfl
  · intro i hi
    refine (if_pos hi).trans ?_
    rw [Simd.pairLane, hcells' i (by omega), hcells' (i + n / 2) (by omega)]
    decide

/-- The sum of the greatest activations with the greatest weights. -/
theorem exactDot_wide {s : PolicyScratch} {r k : Nat} (h : WideNet net n) (hs : ∀ i < n / 2, s.hl.cell i = 4096#16)
    (hr : r < kNumBucketsSee) (hk : k ≤ n / 2) : s.exactDot net r k = k * 520192 := by
  have hl1 : net.l1.toNat = n := by
    rw [h.l1]
    exact Int.toNat_natCast n
  have hterm : ∀ i ∈ Finset.range k,
      (s.hl.cell i).toInt * ((PolicyScratch.row net r).cell i).toInt = 520192 := by
    intro i hi
    rw [Finset.mem_range] at hi
    have hle := Nat.mul_le_mul_right (n / 2) hr
    rw [Nat.succ_mul] at hle
    rw [hs i (by omega), PolicyScratch.row, hl1]
    rw [h.outW _ (by omega)]
    decide
  rw [PolicyScratch.exactDot, Finset.sum_congr rfl hterm, Finset.sum_const, Finset.card_range, nsmul_eq_mul]

theorem withinSet_goldEnding : goldEnding.WithinSet := ⟨by decide +kernel, fun _ => Hand.clean_empty⟩

/-- The bucket of a move of a position with two kings and a gold. -/
theorem bucket_goldForward_lt (hsee : net.see = true) :
    PolicyScratch.bucket net goldEnding goldForward < kNumBucketsSee := by
  have hlt := moveBucket_lt (tabled_of_allowed consistent_goldEnding.toAgree allowed_goldForward)
    (mem_destTable consistent_goldEnding.toAgree allowed_goldForward)
  rw [PolicyScratch.bucket, hsee, if_pos rfl, moveBucketSee, kNumBucketsSee]
  split <;> omega

/-- The readout of such a network for a move of a position with two kings and a gold. -/
theorem not_exact_of_wide (h : WideNet net n) (hn : 8192 < n) (hmod : n % 256 = 0) :
    ¬ net.Exact goldEnding goldForward := by
  intro hexact
  have hl1 : net.l1.toNat = n := by
    rw [h.l1]
    exact Int.toNat_natCast n
  have hsized : PolicyScratch.Sized net ⟨⟨n, fun _ => 0#16⟩, ⟨n / 2, fun _ => 0#16⟩⟩ := ⟨hl1.symm, by rw [hl1]⟩
  obtain ⟨s', hrun, hcells⟩ := computeHidden_wide h hsized
    (fits_policy consistent_goldEnding.toAgree withinSet_goldEnding).lt
  have hrange := (hexact _ s' hsized hrun).1 (net.l1.toNat / 2) le_rfl
  rw [hl1, exactDot_wide h hcells (bucket_goldForward_lt h.see) le_rfl] at hrange
  have hhi := hrange.2
  omega

end Wide

theorem bind_eq_ok {α β : Type} {x : Except String α} {g : α → Except String β} {y : β}
    (h : x >>= g = .ok y) : ∃ a, x = .ok a ∧ g a = .ok y := by
  cases x with
  | error e => cases h
  | ok a => exact ⟨a, rfl, h⟩

/-- What the loader checks of the width. -/
theorem mod_of_load {path : String} {contents : Option (List Byte)} {net : PolicyNet}
    (h : PolicyNet.load path contents = .ok net) : net.l1.tmod 256 = 0 := by
  obtain ⟨f, -, h⟩ := bind_eq_ok h
  dsimp only at h
  split_ifs at h with hkind hfeature hbucket hdims
  have hmod : (f.header.l1.get ⟨0, l1_nonempty⟩).toInt.tmod 256 = 0 := by
    by_contra hno
    exact hdims (Or.inr (Or.inl hno))
  obtain ⟨_, -, h⟩ := bind_eq_ok h
  obtain ⟨_, -, h⟩ := bind_eq_ok h
  obtain ⟨_, -, h⟩ := bind_eq_ok h
  obtain ⟨_, -, h⟩ := bind_eq_ok h
  cases h
  exact hmod

/-- The width in the header decides: if it is at most 8192, no sum of the readout overflows in any network
that is accepted, for any board and move; and if it is greater, some accepted network overflows. (A width
that is not a multiple of 256 is not accepted.) -/
theorem exact_iff (w : BitVec 32) :
    (∀ path contents net, PolicyNet.load path contents = .ok net → net.l1 = w.toInt →
      ∀ b m, net.Exact b m) ↔ w.toInt ≤ 8192 ∨ w.toInt.tmod 256 ≠ 0 := by
  constructor
  · intro hall
    by_contra hwide
    obtain ⟨hgt, hmod⟩ := not_or.mp hwide
    rw [not_le] at hgt
    rw [not_not] at hmod
    obtain ⟨net, hload, hnet⟩ := exists_wideNet (by omega) hmod
    have hint : w.toInt = w.toNat := by
      have hlt := w.isLt
      rw [BitVec.toInt_eq_toNat_cond] at hgt ⊢
      split at hgt
      · exact if_pos ‹_›
      · omega
    have hmod' : w.toNat % 256 = 0 := by
      rw [hint, Int.tmod_eq_emod_of_nonneg (Int.natCast_nonneg _)] at hmod
      omega
    refine not_exact_of_wide hnet (by omega) hmod' (hall "net" _ net hload ?_ goldEnding goldForward)
    rw [hnet.l1, hint]
  · rintro (hle | hmod) path contents net hload hl1 b m
    · exact exact_of_le (hl1.trans_le hle) b m
    · exact absurd (hl1 ▸ mod_of_load hload) hmod

/-- Weights of 127 and a width of 8448. -/
theorem not_exact_wideFile : ∃ net, PolicyNet.load "net" (some (wideFile 8448#32)) = .ok net ∧
    ¬ net.Exact goldEnding goldForward := by
  obtain ⟨net, hload, hnet⟩ := exists_wideNet (w := 8448#32) (by decide) (by decide)
  exact ⟨net, hload, not_exact_of_wide hnet (by decide) (by decide)⟩

end Nnue

end Shogi
