import ShogiEngine.Library.LaneLoop

/-!
# Vector kernels

The kernels of the networks: the scalar reference of `nnue/simd_scalar.h` and the AVX2 form of
`nnue/simd_avx2.h`, with 16 lanes of 16 bits or 8 lanes of 32 bits to a register.

## Main results

- `Scalar.updateRows_eq`, `Avx2.updateRows_eq`: adding and subtracting rows, lane by lane
- `Scalar.dot_eq`, `Avx2.dot_eq`: a dot product, modulo 2^32
- `avx2_eq_scalar`: the two forms agree, and touch the same cells
-/

namespace Shogi

namespace Simd

/-- A register of `n` lanes of `w` bits. -/
abbrev Lanes (n w : Nat) := Fin n → BitVec w

/-! ## The scalar reference -/

namespace Scalar

/-- `CopyBias`. -/
def copyBias (acc bias : Buffer (BitVec 16)) (n : Nat) : Option (Buffer (BitVec 16)) :=
  forLoop n 1 (fun i acc => do acc.write i (← bias.read i)) acc

/-- One row of `UpdateRows`: `acc[i] = static_cast<int16_t>(op(acc[i], row[i]))`. -/
def updateRow (op : BitVec 32 → BitVec 32 → BitVec 32) (n : Nat) (base : Buffer (BitVec 8))
    (stride : Nat) (acc : Buffer (BitVec 16)) (r : Nat) : Option (Buffer (BitVec 16)) :=
  forLoop n 1 (fun i acc => do
    let x ← acc.read i
    let w ← base.read (r * stride + i)
    acc.write i ((op (x.signExtend 32) (w.signExtend 32)).setWidth 16)) acc

/-- `UpdateRows`. -/
def updateRows (acc : Buffer (BitVec 16)) (n : Nat) (base : Buffer (BitVec 8)) (stride : Nat)
    (adds subs : List Nat) : Option (Buffer (BitVec 16)) := do
  let acc ← adds.foldlM (updateRow (· + ·) n base stride) acc
  subs.foldlM (updateRow (· - ·) n base stride) acc

/-- `std::clamp<int>`. -/
def clamp (x lo hi : Int) : Int := if x < lo then lo else if hi < x then hi else x

/-- `PairwiseMul`. -/
def pairwiseMul (acc : Buffer (BitVec 16)) (n : Nat) (qa : Int) (shift : Nat)
    (out : Buffer (BitVec 16)) : Option (Buffer (BitVec 16)) :=
  forLoop (n / 2) 1 (fun i out => do
    let a := clamp (← acc.read i).toInt 0 qa
    let b := clamp (← acc.read (i + n / 2)).toInt 0 qa
    out.write i (BitVec.ofInt 16 ((a * b) >>> shift))) out

/-- `DotI16I16` and, for bytes, `DotI16I8`. -/
def dot {v : Nat} (a : Buffer (BitVec 16)) (b : Buffer (BitVec v)) (n : Nat) :
    Option (BitVec 32) :=
  forLoop n 1 (fun i sum => do
    let x ← a.read i
    let y ← b.read i
    return sum + x.signExtend 32 * y.signExtend 32) 0#32

/-- `DotI16I16`. -/
def dotI16I16 (a b : Buffer (BitVec 16)) (n : Nat) : Option (BitVec 32) := dot a b n

/-- `DotI16I8`. -/
def dotI16I8 (a : Buffer (BitVec 16)) (b : Buffer (BitVec 8)) (n : Nat) : Option (BitVec 32) :=
  dot a b n

end Scalar

/-! ## AVX2 -/

namespace Avx2

/-- `kTileLanes`. -/
def kTileLanes : Nat := 128

/-- `kTileRegs`. -/
def kTileRegs : Nat := 8

/-- An operation on each lane. -/
def lanewise {n w : Nat} (op : BitVec w → BitVec w → BitVec w) (a b : Lanes n w) : Lanes n w :=
  fun l => op (a l) (b l)

/-- `_mm256_add_epi16`, `_mm256_sub_epi16` and `_mm256_mullo_epi16`. -/
def addEpi16 : Lanes 16 16 → Lanes 16 16 → Lanes 16 16 := lanewise (· + ·)

def subEpi16 : Lanes 16 16 → Lanes 16 16 → Lanes 16 16 := lanewise (· - ·)

def mulloEpi16 : Lanes 16 16 → Lanes 16 16 → Lanes 16 16 := lanewise (· * ·)

/-- `_mm256_max_epi16` and `_mm256_min_epi16`, of signed lanes. -/
def maxEpi16 : Lanes 16 16 → Lanes 16 16 → Lanes 16 16 := lanewise fun a b => if a.slt b then b else a

def minEpi16 : Lanes 16 16 → Lanes 16 16 → Lanes 16 16 := lanewise fun a b => if b.slt a then b else a

/-- `_mm256_srai_epi16`. -/
def sraiEpi16 (a : Lanes 16 16) (shift : Nat) : Lanes 16 16 := fun l => (a l).sshiftRight shift

/-- `_mm256_cvtepi8_epi16`. -/
def cvtepi8Epi16 (a : Lanes 16 8) : Lanes 16 16 := fun l => (a l).signExtend 16

/-- `_mm256_madd_epi16`: products of lanes, added in pairs. -/
def maddEpi16 (a b : Lanes 16 16) : Lanes 8 32 := fun l =>
  let product (i : Fin 16) := (a i).signExtend 32 * (b i).signExtend 32
  product ⟨2 * l, by omega⟩ + product ⟨2 * l + 1, by omega⟩

/-- `_mm256_add_epi32` and `_mm_add_epi32`. -/
def addEpi32 {n : Nat} : Lanes n 32 → Lanes n 32 → Lanes n 32 := lanewise (· + ·)

/-- `_mm_shuffle_epi32`: two bits of `imm` for each lane. -/
def shuffleEpi32 (a : Lanes 4 32) (imm : Nat) : Lanes 4 32 :=
  fun l => a ⟨imm / 4 ^ l.val % 4, Nat.mod_lt _ (by decide)⟩

/-- `CopyBias`. -/
def copyBias (acc bias : Buffer (BitVec 16)) (n : Nat) : Option (Buffer (BitVec 16)) :=
  forLoop n 16 (fun i acc => do acc.store i (← bias.load 16 i)) acc

/-- The registers of a tile, loaded and stored. -/
def loadRegs (acc : Buffer (BitVec 16)) (t : Nat) : Option (Nat → Lanes 16 16) :=
  forLoop kTileRegs 1 (fun k regs => do
    return Function.update regs k (← acc.load 16 (t + 16 * k))) fun _ _ => 0#16

def storeRegs (acc : Buffer (BitVec 16)) (t : Nat) (regs : Nat → Lanes 16 16) :
    Option (Buffer (BitVec 16)) :=
  forLoop kTileRegs 1 (fun k acc => acc.store (t + 16 * k) (regs k)) acc

/-- One row of a tile. -/
def updateRegs (op : Lanes 16 16 → Lanes 16 16 → Lanes 16 16) (base : Buffer (BitVec 8))
    (stride t : Nat) (regs : Nat → Lanes 16 16) (r : Nat) : Option (Nat → Lanes 16 16) :=
  forLoop kTileRegs 1 (fun k regs => do
    let w8 ← base.load 16 (r * stride + t + 16 * k)
    return Function.update regs k (op (regs k) (cvtepi8Epi16 w8))) regs

/-- `UpdateRows`. -/
def updateRows (acc : Buffer (BitVec 16)) (n : Nat) (base : Buffer (BitVec 8)) (stride : Nat)
    (adds subs : List Nat) : Option (Buffer (BitVec 16)) :=
  forLoop n kTileLanes (fun t acc => do
    let regs ← loadRegs acc t
    let regs ← adds.foldlM (updateRegs addEpi16 base stride t) regs
    let regs ← subs.foldlM (updateRegs subEpi16 base stride t) regs
    storeRegs acc t regs) acc

/-- `PairwiseMul`. -/
def pairwiseMul (acc : Buffer (BitVec 16)) (n : Nat) (qa : Int) (shift : Nat)
    (out : Buffer (BitVec 16)) : Option (Buffer (BitVec 16)) :=
  let zero : Lanes 16 16 := fun _ => 0#16
  let qav : Lanes 16 16 := fun _ => BitVec.ofInt 16 qa
  forLoop (n / 2) 16 (fun i out => do
    let a ← acc.load 16 i
    let b ← acc.load 16 (n / 2 + i)
    let p := mulloEpi16 (minEpi16 (maxEpi16 a zero) qav) (minEpi16 (maxEpi16 b zero) qav)
    out.store i (if shift ≠ 0 then sraiEpi16 p shift else p)) out

/-- `HorizontalSum`. -/
def horizontalSum (v : Lanes 8 32) : BitVec 32 :=
  let lo : Lanes 4 32 := fun l => v ⟨l, by omega⟩
  let hi : Lanes 4 32 := fun l => v ⟨4 + l, by omega⟩
  let lo := addEpi32 lo hi
  let lo := addEpi32 lo (shuffleEpi32 lo 0x4E)
  let lo := addEpi32 lo (shuffleEpi32 lo 0xB1)
  lo 0

/-- One pass of a dot product: 16 products for each of the two registers of partial sums. -/
def dotPass (loadA loadB : Nat → Option (Lanes 16 16)) (i : Nat) (s : Lanes 8 32 × Lanes 8 32) :
    Option (Lanes 8 32 × Lanes 8 32) := do
  let a0 ← loadA i
  let b0 ← loadB i
  let a1 ← loadA (i + 16)
  let b1 ← loadB (i + 16)
  return (addEpi32 s.1 (maddEpi16 a0 b0), addEpi32 s.2 (maddEpi16 a1 b1))

/-- `DotI16I16` and `DotI16I8`, which differ in how the second operand is loaded. -/
def dot (loadA loadB : Nat → Option (Lanes 16 16)) (n : Nat) : Option (BitVec 32) := do
  let s ← forLoop n 32 (dotPass loadA loadB) ((fun _ => 0#32), (fun _ => 0#32))
  return horizontalSum (addEpi32 s.1 s.2)

/-- `DotI16I16`. -/
def dotI16I16 (a b : Buffer (BitVec 16)) (n : Nat) : Option (BitVec 32) :=
  dot (a.load 16) (b.load 16) n

/-- `DotI16I8`. -/
def dotI16I8 (a : Buffer (BitVec 16)) (b : Buffer (BitVec 8)) (n : Nat) : Option (BitVec 32) :=
  dot (a.load 16) (fun i => (b.load 16 i).map cvtepi8Epi16) n

end Avx2

/-! ## Copying -/

section Copy

variable {acc bias : Buffer (BitVec 16)} {n : Nat}

theorem Scalar.copyBias_eq (hacc : n ≤ acc.len) (hbias : n ≤ bias.len) :
    Scalar.copyBias acc bias n = some (acc.sweep n fun i _ => bias.cell i) := by
  refine forLoop_cells (Buffer.mk acc.len) fun i hi c hc => ?_
  have hread : bias.read i = some (bias.cell i) := Buffer.read_eq (hi.trans_le hbias)
  have hwrite := @Buffer.write_eq _ ⟨acc.len, c⟩ i (hi.trans_le hacc) (bias.cell i)
  simp only [hread, Option.bind_eq_bind, Option.bind_some, hwrite]

theorem Avx2.copyBias_eq (hdvd : 16 ∣ n) (hacc : n ≤ acc.len) (hbias : n ≤ bias.len) :
    Avx2.copyBias acc bias n = some (acc.sweep n fun i _ => bias.cell i) := by
  obtain ⟨m, rfl⟩ := hdvd
  rw [Nat.mul_comm] at hacc hbias ⊢
  refine forLoop_lanes (by decide) (Buffer.mk acc.len) fun q hq c hc => ?_
  have hend : q * 16 + 16 ≤ m * 16 := by omega
  have hload : bias.load 16 (q * 16) = some fun l : Fin 16 => bias.cell (q * 16 + l) :=
    Buffer.load_eq (hend.trans hbias)
  have hstore := @Buffer.store_eq _ ⟨acc.len, c⟩ (q * 16) 16 (hend.trans hacc)
    fun l : Fin 16 => bias.cell (q * 16 + l)
  simp only [hload, Option.bind_eq_bind, Option.bind_some, hstore]

end Copy

/-! ## Rows -/

section Rows

variable {acc : Buffer (BitVec 16)} {base : Buffer (BitVec 8)} {n stride : Nat} {adds subs : List Nat}

/-- A lane after rows have been added and subtracted. -/
def rowsLane (base : Buffer (BitVec 8)) (stride : Nat) (adds subs : List Nat) (j : Nat)
    (x : BitVec 16) : BitVec 16 :=
  subs.foldl (fun x r => x - (base.cell (r * stride + j)).signExtend 16)
    (adds.foldl (fun x r => x + (base.cell (r * stride + j)).signExtend 16) x)

theorem setWidth_signExtend {v w k : Nat} (x : BitVec v) (h : k ≤ w) :
    (x.signExtend w).setWidth k = x.signExtend k := by
  apply BitVec.eq_of_getLsbD_eq
  intro i hi
  rw [BitVec.getLsbD_setWidth, BitVec.getLsbD_signExtend, BitVec.getLsbD_signExtend]
  simp [hi, hi.trans_le h]

/-- Sums and differences in `int`, cut to 16 bits. -/
theorem setWidth_add (x : BitVec 16) (w : BitVec 8) :
    (x.signExtend 32 + w.signExtend 32).setWidth 16 = x + w.signExtend 16 := by
  rw [BitVec.setWidth_add _ _ (by decide), setWidth_signExtend _ (by decide),
    setWidth_signExtend _ (by decide), BitVec.signExtend_eq]

theorem setWidth_sub (x : BitVec 16) (w : BitVec 8) :
    (x.signExtend 32 - w.signExtend 32).setWidth 16 = x - w.signExtend 16 := by
  have hback := BitVec.setWidth_add (x.signExtend 32 - w.signExtend 32) (w.signExtend 32)
    (show 16 ≤ 32 by decide)
  rw [BitVec.sub_add_cancel, setWidth_signExtend _ (by decide), setWidth_signExtend _ (by decide),
    BitVec.signExtend_eq] at hback
  exact eq_sub_of_add_eq hback.symm

/-- One row, for an operation that is the same before and after cutting. -/
theorem Scalar.updateRow_eq {op : BitVec 32 → BitVec 32 → BitVec 32}
    {op' : BitVec 16 → BitVec 16 → BitVec 16}
    (hop : ∀ (x : BitVec 16) (w : BitVec 8),
      (op (x.signExtend 32) (w.signExtend 32)).setWidth 16 = op' x (w.signExtend 16))
    {r : Nat} (hacc : n ≤ acc.len) (hrow : r * stride + n ≤ base.len) :
    Scalar.updateRow op n base stride acc r =
      some (acc.sweep n fun i x => op' x ((base.cell (r * stride + i)).signExtend 16)) := by
  refine forLoop_cells (Buffer.mk acc.len) fun i hi c hc => ?_
  have hread := @Buffer.read_eq _ ⟨acc.len, c⟩ i (hi.trans_le hacc)
  have hrow' : base.read (r * stride + i) = some (base.cell (r * stride + i)) :=
    Buffer.read_eq (by omega)
  have hwrite := @Buffer.write_eq _ ⟨acc.len, c⟩ i (hi.trans_le hacc)
    (op' (acc.cell i) ((base.cell (r * stride + i)).signExtend 16))
  simp only [hread, hrow', Option.bind_eq_bind, Option.bind_some, hop, hc, hwrite]

theorem Scalar.foldlM_updateRow {op : BitVec 32 → BitVec 32 → BitVec 32}
    {op' : BitVec 16 → BitVec 16 → BitVec 16}
    (hop : ∀ (x : BitVec 16) (w : BitVec 8),
      (op (x.signExtend 32) (w.signExtend 32)).setWidth 16 = op' x (w.signExtend 16))
    {rows : List Nat} (hacc : n ≤ acc.len) (hrows : ∀ r ∈ rows, r * stride + n ≤ base.len) :
    rows.foldlM (Scalar.updateRow op n base stride) acc = some (acc.sweep n fun i x =>
      rows.foldl (fun x r => op' x ((base.cell (r * stride + i)).signExtend 16)) x) := by
  have hfold := @foldlM_eq (Buffer (BitVec 16)) Nat (Scalar.updateRow op n base stride)
    (fun b r => b.sweep n fun i x => op' x ((base.cell (r * stride + i)).signExtend 16)) rows
    (fun b => b.len = acc.len) acc rfl fun b r hr hlen =>
      ⟨Scalar.updateRow_eq hop (hlen ▸ hacc) (hrows r hr), hlen⟩
  rw [hfold.1, Buffer.foldl_sweep]

theorem Scalar.updateRows_eq (hacc : n ≤ acc.len)
    (hadds : ∀ r ∈ adds, r * stride + n ≤ base.len) (hsubs : ∀ r ∈ subs, r * stride + n ≤ base.len) :
    Scalar.updateRows acc n base stride adds subs =
      some (acc.sweep n (rowsLane base stride adds subs)) := by
  rw [Scalar.updateRows, Scalar.foldlM_updateRow setWidth_add hacc hadds, Option.bind_eq_bind,
    Option.bind_some,
    Scalar.foldlM_updateRow setWidth_sub (show n ≤ (acc.sweep n _).len from hacc) hsubs,
    Buffer.sweep_sweep]
  rfl

/-! ### Tiles -/

variable {t : Nat} {regs : Nat → Lanes 16 16}

/-- The lanes of a tile in its registers. -/
def tileRegs (c : Nat → BitVec 16) (t : Nat) : Nat → Lanes 16 16 := fun k l => c (t + 16 * k + l)

theorem Avx2.loadRegs_eq (hacc : t + 128 ≤ acc.len) : Avx2.loadRegs acc t =
    some fun k => if k < 8 then tileRegs acc.cell t k else fun _ => 0#16 := by
  refine forLoop_cells id fun k hk c hc => ?_
  have hk8 : k < 8 := hk
  have hload : acc.load 16 (t + 16 * k) = some (tileRegs acc.cell t k) := Buffer.load_eq (by omega)
  simp only [hload, Option.bind_eq_bind, Option.bind_some]
  rfl

theorem Avx2.updateRegs_eq {op : BitVec 16 → BitVec 16 → BitVec 16} {r : Nat}
    (hrow : r * stride + t + 128 ≤ base.len) :
    Avx2.updateRegs (Avx2.lanewise op) base stride t regs r = some fun k =>
      if k < 8 then fun l : Fin 16 =>
        op (regs k l) ((base.cell (r * stride + (t + 16 * k + l))).signExtend 16)
      else regs k := by
  refine forLoop_cells id fun k hk c hc => ?_
  have hk8 : k < 8 := hk
  have hload : base.load 16 (r * stride + t + 16 * k) =
      some fun l : Fin 16 => base.cell (r * stride + t + 16 * k + l) := Buffer.load_eq (by omega)
  have hlanes : Avx2.lanewise op (c k) (Avx2.cvtepi8Epi16 fun l : Fin 16 =>
      base.cell (r * stride + t + 16 * k + l)) = fun l : Fin 16 =>
      op (regs k l) ((base.cell (r * stride + (t + 16 * k + l))).signExtend 16) := by
    funext l
    rw [Avx2.lanewise, Avx2.cvtepi8Epi16, hc]
    congr 3
    omega
  simp only [id_eq, hload, Option.bind_eq_bind, Option.bind_some, hlanes]
  rfl

/-- Rows go through the lanes of the registers one after the other. -/
theorem Avx2.foldlM_updateRegs {op : BitVec 16 → BitVec 16 → BitVec 16} {rows : List Nat}
    (hrows : ∀ r ∈ rows, r * stride + t + 128 ≤ base.len) :
    rows.foldlM (Avx2.updateRegs (Avx2.lanewise op) base stride t) regs = some fun k =>
      if k < 8 then fun l : Fin 16 => rows.foldl
        (fun x r => op x ((base.cell (r * stride + (t + 16 * k + l))).signExtend 16)) (regs k l)
      else regs k := by
  induction rows generalizing regs with
  | nil =>
    rw [List.foldlM_nil]
    congr 1
    funext k
    exact (ite_self _).symm
  | cons r rows ih =>
    obtain ⟨hr, hrows⟩ := List.forall_mem_cons.mp hrows
    rw [List.foldlM_cons, Avx2.updateRegs_eq hr, Option.bind_eq_bind, Option.bind_some, ih hrows]
    congr 1
    funext k
    by_cases hk : k < 8
    · simp only [if_pos hk, List.foldl_cons]
    · simp only [if_neg hk]

theorem Avx2.storeRegs_eq {c : Nat → BitVec 16} {len : Nat} (hlen : t + 128 ≤ len)
    {g : Nat → BitVec 16} (hregs : ∀ k < 8, ∀ l : Fin 16, regs k l = g (t + 16 * k + l)) :
    Avx2.storeRegs ⟨len, c⟩ t regs =
      some ⟨len, Buffer.put c t fun l : Fin 128 => g (t + l)⟩ := by
  have hloop := @forLoop_eq (Buffer (BitVec 16)) 8 1 (fun k acc => acc.store (t + 16 * k) (regs k))
    (fun k => ⟨len, fun j => if t ≤ j ∧ j < t + 16 * k then g j else c j⟩) (fun k hk => by
      rw [Nat.add_sub_cancel, Nat.div_one] at hk
      rw [Nat.mul_one, @Buffer.store_eq _ ⟨len, _⟩ (t + 16 * k) 16 (show _ ≤ len by omega)]
      congr 2
      funext j
      rw [Buffer.put]
      split
      · rename_i h
        rw [hregs k hk, if_pos (by omega)]
        congr 1
        simp only
        omega
      · exact if_congr (by omega) rfl rfl)
  have hstart : (fun j => if t ≤ j ∧ j < t + 16 * 0 then g j else c j) = c := by
    funext j
    exact if_neg (by omega)
  have hend : (fun j => if t ≤ j ∧ j < t + 16 * ((8 + 1 - 1) / 1) then g j else c j) =
      Buffer.put c t fun l : Fin 128 => g (t + l) := by
    funext j
    rw [Buffer.put]
    by_cases hj : t ≤ j ∧ j < t + 128
    · rw [if_pos (by omega), dif_pos hj]
      congr 1
      simp only
      omega
    · rw [if_neg (by omega), dif_neg hj]
  rw [hstart, hend] at hloop
  exact hloop

theorem Avx2.updateRows_eq (hdvd : 128 ∣ n) (hacc : n ≤ acc.len)
    (hadds : ∀ r ∈ adds, r * stride + n ≤ base.len) (hsubs : ∀ r ∈ subs, r * stride + n ≤ base.len) :
    Avx2.updateRows acc n base stride adds subs =
      some (acc.sweep n (rowsLane base stride adds subs)) := by
  obtain ⟨m, rfl⟩ := hdvd
  rw [Nat.mul_comm] at hacc hadds hsubs ⊢
  refine forLoop_lanes (by decide) (Buffer.mk acc.len) fun q hq c hc => ?_
  have hend : q * 128 + 128 ≤ m * 128 := by omega
  have hload := @Avx2.loadRegs_eq ⟨acc.len, c⟩ (q * 128) (hend.trans hacc)
  have hadd : ∀ r ∈ adds, r * stride + q * 128 + 128 ≤ base.len := by
    intro r hr
    have := hadds r hr
    omega
  have hsub : ∀ r ∈ subs, r * stride + q * 128 + 128 ≤ base.len := by
    intro r hr
    have := hsubs r hr
    omega
  simp only [Option.bind_eq_bind]
  rw [hload, Option.bind_some, Avx2.addEpi16, Avx2.foldlM_updateRegs hadd, Option.bind_some,
    Avx2.subEpi16, Avx2.foldlM_updateRegs hsub, Option.bind_some]
  refine @Avx2.storeRegs_eq (q * 128) _ c acc.len (hend.trans hacc)
    (fun j => rowsLane base stride adds subs j (acc.cell j)) fun k hk l => ?_
  rw [if_pos hk, if_pos hk, if_pos hk, tileRegs,
    show (Buffer.mk acc.len c).cell (q * 128 + 16 * k + l) = acc.cell (q * 128 + 16 * k + l) from
      hc _ (by omega)]
  rfl

end Rows

/-! ## Products of pairs -/

section Pairs

variable {acc out : Buffer (BitVec 16)} {n shift : Nat}

/-- A lane of the activation: the product of two clamped lanes. -/
def pairLane (acc : Buffer (BitVec 16)) (half : Nat) (qa : Int) (shift i : Nat) : BitVec 16 :=
  BitVec.ofInt 16 ((Scalar.clamp (acc.cell i).toInt 0 qa *
    Scalar.clamp (acc.cell (i + half)).toInt 0 qa) >>> shift)

theorem Scalar.pairwiseMul_eq {qa : Int} (hacc : n ≤ acc.len) (hout : n / 2 ≤ out.len) :
    Scalar.pairwiseMul acc n qa shift out =
      some (out.sweep (n / 2) fun i _ => pairLane acc (n / 2) qa shift i) := by
  refine forLoop_cells (Buffer.mk out.len) fun i hi c hc => ?_
  have hread : acc.read i = some (acc.cell i) := Buffer.read_eq (by omega)
  have hread' : acc.read (i + n / 2) = some (acc.cell (i + n / 2)) := Buffer.read_eq (by omega)
  have hwrite := @Buffer.write_eq _ ⟨out.len, c⟩ i (hi.trans_le hout)
    (pairLane acc (n / 2) qa shift i)
  simp only [hread, hread', Option.bind_eq_bind, Option.bind_some]
  exact hwrite

/-- The lanes of `_mm256_max_epi16` and `_mm256_min_epi16` clamp. -/
theorem toInt_clamp (x : BitVec 16) :
    (if (128#16).slt (if x.slt 0#16 then 0#16 else x) then 128#16
      else if x.slt 0#16 then 0#16 else x).toInt = Scalar.clamp x.toInt 0 128 := by
  rw [Scalar.clamp]
  simp only [BitVec.slt, decide_eq_true_eq]
  have h0 : (0#16).toInt = 0 := by decide
  have h128 : (128#16).toInt = 128 := by decide
  rw [h0, h128]
  by_cases h1 : x.toInt < 0
  · simp only [if_pos h1, h0]
    rfl
  · simp only [if_neg h1]
    by_cases h2 : 128 < x.toInt
    · rw [if_pos h2, if_pos h2, h128]
    · rw [if_neg h2, if_neg h2]

theorem clamp_mem {x : Int} : 0 ≤ Scalar.clamp x 0 128 ∧ Scalar.clamp x 0 128 ≤ 128 := by
  rw [Scalar.clamp]
  split_ifs <;> omega

/-- The product of two clamped lanes fits in 16 bits, so that it may be shifted there. -/
theorem mul_shift {a b : BitVec 16} (ha : 0 ≤ a.toInt ∧ a.toInt ≤ 128)
    (hb : 0 ≤ b.toInt ∧ b.toInt ≤ 128) (shift : Nat) :
    (a * b).sshiftRight shift = BitVec.ofInt 16 ((a.toInt * b.toInt) >>> shift) := by
  have hnonneg : 0 ≤ a.toInt * b.toInt := Int.mul_nonneg ha.1 hb.1
  have hle : a.toInt * b.toInt ≤ 128 * 128 := Int.mul_le_mul ha.2 hb.2 hb.1 (by omega)
  have hmul : (a * b).toInt = a.toInt * b.toInt := by
    rw [BitVec.toInt_mul]
    exact Int.bmod_eq_of_le (by omega) (by omega)
  rw [← hmul, ← BitVec.toInt_sshiftRight, BitVec.ofInt_toInt]

theorem Avx2.pairwiseMul_eq (hdvd : 16 ∣ n / 2) (hacc : n ≤ acc.len) (hout : n / 2 ≤ out.len) :
    Avx2.pairwiseMul acc n 128 shift out =
      some (out.sweep (n / 2) fun i _ => pairLane acc (n / 2) 128 shift i) := by
  have hhalf : n / 2 + n / 2 ≤ n := by omega
  rw [Avx2.pairwiseMul]
  generalize n / 2 = half at hdvd hout hhalf ⊢
  obtain ⟨m, rfl⟩ := hdvd
  rw [Nat.mul_comm] at hout hhalf ⊢
  refine forLoop_lanes (by decide) (Buffer.mk out.len) fun q hq c hc => ?_
  have hend : q * 16 + 16 ≤ m * 16 := by omega
  have hload : acc.load 16 (q * 16) = some fun l : Fin 16 => acc.cell (q * 16 + l) :=
    Buffer.load_eq (by omega)
  have hload' : acc.load 16 (m * 16 + q * 16) =
      some fun l : Fin 16 => acc.cell (m * 16 + q * 16 + l) := Buffer.load_eq (by omega)
  simp only [hload, hload', Option.bind_eq_bind, Option.bind_some]
  rw [@Buffer.store_eq _ ⟨out.len, c⟩ (q * 16) 16 (hend.trans hout)]
  congr 2
  congr 1
  funext l
  have hsecond : acc.cell (q * 16 + l + m * 16) = acc.cell (m * 16 + q * 16 + l) := by
    congr 1
    omega
  rw [pairLane, hsecond, ← toInt_clamp, ← toInt_clamp, ← mul_shift]
  · by_cases hs : shift = 0
    · rw [if_neg (not_not.mpr hs), hs, BitVec.sshiftRight_zero]
      rfl
    · rw [if_pos hs]
      rfl
  · rw [toInt_clamp]
    exact clamp_mem
  · rw [toInt_clamp]
    exact clamp_mem

end Pairs

/-! ## Dot products -/

section Dot

variable {v n : Nat} {a : Buffer (BitVec 16)} {b : Buffer (BitVec v)}

/-- The products of a dot product. -/
def product {v : Nat} (a : Buffer (BitVec 16)) (b : Buffer (BitVec v)) (i : Nat) : BitVec 32 :=
  (a.cell i).signExtend 32 * (b.cell i).signExtend 32

theorem Scalar.dot_eq (ha : n ≤ a.len) (hb : n ≤ b.len) :
    Scalar.dot a b n = some (∑ i ∈ Finset.range n, product a b i) := by
  have hloop := @forLoop_eq (BitVec 32) n 1 (fun i sum => do
      let x ← a.read i
      let y ← b.read i
      return sum + x.signExtend 32 * y.signExtend 32)
    (fun q => ∑ i ∈ Finset.range q, product a b i) (fun q hq => by
      rw [Nat.add_sub_cancel, Nat.div_one] at hq
      have hreadA : a.read q = some (a.cell q) := Buffer.read_eq (hq.trans_le ha)
      have hreadB : b.read q = some (b.cell q) := Buffer.read_eq (hq.trans_le hb)
      rw [Nat.mul_one]
      simp only [hreadA, hreadB, Option.bind_eq_bind, Option.bind_some, Finset.sum_range_succ]
      rfl)
  rw [Nat.add_sub_cancel, Nat.div_one, Finset.range_zero, Finset.sum_empty] at hloop
  exact hloop

/-- The order of the partial sums does not matter. -/
theorem Avx2.horizontalSum_eq (s : Lanes 8 32) : Avx2.horizontalSum s = ∑ l : Fin 8, s l := by
  have hlanes : Avx2.horizontalSum s =
      ((s 0 + s 4) + (s 2 + s 6)) + ((s 1 + s 5) + (s 3 + s 7)) := rfl
  rw [hlanes, Fin.sum_univ_eight]
  ring

/-- The products of a pass, as the two registers of partial sums take them. -/
theorem sum_range_pairs (f : Nat → BitVec 32) : ∑ j ∈ Finset.range 32, f j =
    ∑ l : Fin 8, ((f (2 * l) + f (2 * l + 1)) + (f (16 + 2 * l) + f (16 + (2 * l + 1)))) := by
  have hright : ∑ l : Fin 8, ((f (2 * l) + f (2 * l + 1)) +
      (f (16 + 2 * l) + f (16 + (2 * l + 1)))) =
      (f 0 + f 1 + (f 16 + f 17)) + (f 2 + f 3 + (f 18 + f 19)) + (f 4 + f 5 + (f 20 + f 21)) +
        (f 6 + f 7 + (f 22 + f 23)) + (f 8 + f 9 + (f 24 + f 25)) +
        (f 10 + f 11 + (f 26 + f 27)) + (f 12 + f 13 + (f 28 + f 29)) +
        (f 14 + f 15 + (f 30 + f 31)) := Fin.sum_univ_eight _
  rw [hright]
  simp only [Finset.sum_range_succ, Finset.sum_range_zero, zero_add]
  abel

/-- The partial sums of a register after `q` passes. -/
def partialSums (x y : Nat → BitVec 16) (o q : Nat) : Lanes 8 32 := fun l =>
  ∑ p ∈ Finset.range q,
    Avx2.maddEpi16 (fun l => x (p * 32 + o + l)) (fun l => y (p * 32 + o + l)) l

theorem Avx2.dot_eq {loadA loadB : Nat → Option (Lanes 16 16)} {x y : Nat → BitVec 16}
    (hdvd : 32 ∣ n) (ha : ∀ i, i + 16 ≤ n → loadA i = some fun l : Fin 16 => x (i + l))
    (hb : ∀ i, i + 16 ≤ n → loadB i = some fun l : Fin 16 => y (i + l)) :
    Avx2.dot loadA loadB n =
      some (∑ i ∈ Finset.range n, (x i).signExtend 32 * (y i).signExtend 32) := by
  obtain ⟨m, rfl⟩ := hdvd
  rw [Nat.mul_comm] at ha hb ⊢
  have hloop : forLoop (m * 32) 32 (Avx2.dotPass loadA loadB) ((fun _ => 0#32), (fun _ => 0#32)) =
      some (partialSums x y 0 m, partialSums x y 16 m) := by
    have hpasses := @forLoop_eq (Lanes 8 32 × Lanes 8 32) (m * 32) 32 (Avx2.dotPass loadA loadB)
      (fun q => (partialSums x y 0 q, partialSums x y 16 q)) (fun q hq => by
        rw [passes_mul (by decide)] at hq
        have hsum : ∀ o, partialSums x y o (q + 1) = Avx2.addEpi32 (partialSums x y o q)
            (Avx2.maddEpi16 (fun l => x (q * 32 + o + l)) fun l => y (q * 32 + o + l)) :=
          fun o => funext fun l => Finset.sum_range_succ _ q
        rw [Avx2.dotPass, ha (q * 32) (by omega), hb (q * 32) (by omega),
          ha (q * 32 + 16) (by omega), hb (q * 32 + 16) (by omega), hsum, hsum]
        rfl)
    rw [passes_mul (by decide)] at hpasses
    exact hpasses
  rw [Avx2.dot, hloop, Option.bind_eq_bind, Option.bind_some, Avx2.horizontalSum_eq, sum_range_mul]
  congr 1
  simp only [sum_range_pairs]
  rw [Finset.sum_comm]
  refine Finset.sum_congr rfl fun l _ => ?_
  rw [Finset.sum_add_distrib, show Avx2.addEpi32 (partialSums x y 0 m) (partialSums x y 16 m) l =
    partialSums x y 0 m l + partialSums x y 16 m l from rfl]
  simp only [partialSums, Avx2.maddEpi16, Nat.add_assoc, Nat.zero_add]

theorem signExtend_signExtend (x : BitVec 8) : (x.signExtend 16).signExtend 32 = x.signExtend 32 := by
  apply BitVec.eq_of_toInt_eq
  rw [BitVec.toInt_signExtend_of_le (by decide), BitVec.toInt_signExtend_of_le (by decide),
    BitVec.toInt_signExtend_of_le (by decide)]

theorem Avx2.dotI16I16_eq {b : Buffer (BitVec 16)} (hdvd : 32 ∣ n) (ha : n ≤ a.len)
    (hb : n ≤ b.len) :
    Avx2.dotI16I16 a b n = some (∑ i ∈ Finset.range n, product a b i) :=
  Avx2.dot_eq hdvd (fun _ hi => Buffer.load_eq (hi.trans ha)) fun _ hi =>
    Buffer.load_eq (hi.trans hb)

theorem Avx2.dotI16I8_eq {b : Buffer (BitVec 8)} (hdvd : 32 ∣ n) (ha : n ≤ a.len)
    (hb : n ≤ b.len) :
    Avx2.dotI16I8 a b n = some (∑ i ∈ Finset.range n, product a b i) := by
  have hdot := @Avx2.dot_eq n (a.load 16) (fun i => (b.load 16 i).map Avx2.cvtepi8Epi16) a.cell
    (fun i => (b.cell i).signExtend 16) hdvd (fun _ hi => Buffer.load_eq (hi.trans ha))
    fun i hi => by
      rw [Buffer.load_eq (hi.trans hb)]
      rfl
  simp only [signExtend_signExtend] at hdot
  exact hdot

end Dot

/-! ## Sums without a bound -/

/-- The numbers that a signed word of `w` bits holds. -/
def SignedRange (w : Nat) (x : Int) : Prop := -2 ^ (w - 1) ≤ x ∧ x < 2 ^ (w - 1)

section Exact

variable {v w n : Nat} {a : Buffer (BitVec 16)} {b : Buffer (BitVec v)}

/-- A number in range is not changed. -/
theorem SignedRange.toInt_ofInt {x : Int} (hw : 0 < w) (h : SignedRange w x) : (BitVec.ofInt w x).toInt = x :=
  BitVec.toInt_ofInt_eq_self hw h.1 h.2

/-- A product of two cells is the product of their values, cut to 32 bits. -/
theorem product_eq (i : Nat) : product a b i = BitVec.ofInt 32 ((a.cell i).toInt * (b.cell i).toInt) := by
  rw [BitVec.ofInt_mul]
  rfl

/-- A dot product is the sum of the products, cut to 32 bits. -/
theorem sum_product_eq : ∑ i ∈ Finset.range n, product a b i =
    BitVec.ofInt 32 (∑ i ∈ Finset.range n, (a.cell i).toInt * (b.cell i).toInt) := by
  induction n with
  | zero => rfl
  | succ n ih => rw [Finset.sum_range_succ, Finset.sum_range_succ, ih, product_eq, BitVec.ofInt_add]

end Exact

/-! ## Agreement -/

/-- For the sizes that the loaders admit, the AVX2 kernels and the scalar reference compute the same
and touch nothing beyond the length, which may be all of the buffer. -/
theorem avx2_eq_scalar (l1 : Nat) (_ : 0 < l1) (hmod : l1 % 256 = 0) :
    (∀ acc bias : Buffer (BitVec 16), l1 ≤ acc.len → l1 ≤ bias.len →
      ∃ r, Avx2.copyBias acc bias l1 = some r ∧ Scalar.copyBias acc bias l1 = some r) ∧
    (∀ (acc : Buffer (BitVec 16)) (base : Buffer (BitVec 8)) (stride : Nat) (adds subs : List Nat),
      l1 ≤ acc.len → (∀ r ∈ adds, r * stride + l1 ≤ base.len) →
      (∀ r ∈ subs, r * stride + l1 ≤ base.len) →
      ∃ r, Avx2.updateRows acc l1 base stride adds subs = some r ∧
        Scalar.updateRows acc l1 base stride adds subs = some r) ∧
    (∀ (acc out : Buffer (BitVec 16)) (shift : Nat), l1 ≤ acc.len → l1 / 2 ≤ out.len →
      shift = 0 ∨ shift = 2 →
      ∃ r, Avx2.pairwiseMul acc l1 128 shift out = some r ∧
        Scalar.pairwiseMul acc l1 128 shift out = some r) ∧
    ∀ n, n = l1 / 2 ∨ n = 3 * l1 / 2 →
      (∀ a b : Buffer (BitVec 16), n ≤ a.len → n ≤ b.len →
        ∃ r, Avx2.dotI16I16 a b n = some r ∧ Scalar.dotI16I16 a b n = some r) ∧
      ∀ (a : Buffer (BitVec 16)) (b : Buffer (BitVec 8)), n ≤ a.len → n ≤ b.len →
        ∃ r, Avx2.dotI16I8 a b n = some r ∧ Scalar.dotI16I8 a b n = some r := by
  refine ⟨fun acc bias hacc hbias => ?_, fun acc base stride adds subs hacc hadds hsubs => ?_,
    fun acc out shift hacc hout _ => ?_, fun n hn => ⟨fun a b ha hb => ?_, fun a b ha hb => ?_⟩⟩
  · exact ⟨_, Avx2.copyBias_eq (by omega) hacc hbias, Scalar.copyBias_eq hacc hbias⟩
  · exact ⟨_, Avx2.updateRows_eq (by omega) hacc hadds hsubs,
      Scalar.updateRows_eq hacc hadds hsubs⟩
  · exact ⟨_, Avx2.pairwiseMul_eq (by omega) hacc hout, Scalar.pairwiseMul_eq hacc hout⟩
  · exact ⟨_, Avx2.dotI16I16_eq (by omega) ha hb, Scalar.dot_eq ha hb⟩
  · exact ⟨_, Avx2.dotI16I8_eq (by omega) ha hb, Scalar.dot_eq ha hb⟩

/-- The smallest network: buffers of exactly its size. -/
theorem avx2_eq_scalar_smallest : ∃ r,
    Avx2.copyBias ⟨256, fun _ => 0#16⟩ ⟨256, fun i => BitVec.ofNat 16 i⟩ 256 = some r ∧
      Scalar.copyBias ⟨256, fun _ => 0#16⟩ ⟨256, fun i => BitVec.ofNat 16 i⟩ 256 = some r :=
  (avx2_eq_scalar 256 (by decide) (by decide)).1 _ _ le_rfl le_rfl

end Simd

end Shogi
