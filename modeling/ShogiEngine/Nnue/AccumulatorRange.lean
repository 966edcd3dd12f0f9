import ShogiEngine.Library.RunningSums
import ShogiEngine.Nnue.FeatureBounds

/-!
# The range of the accumulators

The first layer of the value network adds rows of 8-bit weights in 16-bit cells. With the clips of the
trainer the cells of group A never leave their range. Those of group B do on boards that are crowded enough.

## Main definitions

- `Position.slotMen`, `Position.attackPairs`: the men that have slots, and who attacks whom
- `FirstLayer`, `evaluateB`: group B in `Evaluate`
- `StaysInRange`: no sum that `UpdateRows` stores is cut

## Main results

- `length_groupBFeatures`: the rows of group B are the men with slots and the pairs
- `groupAExact`: group A, over all runs
- `exact_iff_rows_le`: all clipped networks are exact up to 193 rows, and no further
-/

namespace Shogi

namespace Position

/-- The men other than kings, on the board and in the hands. -/
def slotMen (p : Position) : Nat := (PieceType.handTypes.map p.total).sum

/-- The pairs of a man and a man that it attacks, whatever their colours. -/
def attackPairs (p : Position) : Set (Square × Square) :=
  {x | ∃ q, p.man x.1 = some q ∧ Attacks q.type q.color p.Occupied x.1 x.2 ∧ p.Occupied x.2}

end Position

namespace Nnue

open ShogiBoard

/-! ## The number of rows -/

section Count

variable {b : ShogiBoard} {c c' : Color}

/-- The man that a threat comes from. -/
theorem man_of_mem_threats (ha : b.Agree) {t : Threat} (ht : t ∈ threats b c) :
    b.position.man t.src = some ⟨c, typeFromId t.tid⟩ :=
  ha.has_iff.mp (mem_threats.mp ht).2.1

/-- The two squares decide a threat. -/
theorem threat_ext (ha : b.Agree) {t t' : Threat} (ht : t ∈ threats b c) (ht' : t' ∈ threats b c')
    (h : (t.src, t.dst) = (t'.src, t'.dst)) : c = c' ∧ t = t' := by
  obtain ⟨hsrc, hdst⟩ := Prod.mk.inj h
  have hman := man_of_mem_threats ha ht
  rw [hsrc, man_of_mem_threats ha ht', Option.some.injEq, Piece.mk.injEq] at hman
  refine ⟨hman.1.symm, ?_⟩
  have htid : t'.tid = t.tid := by
    rw [← typeId_typeFromId (mem_threats.mp ht').1, hman.2, typeId_typeFromId (mem_threats.mp ht).1]
  cases t
  cases t'
  exact Threat.mk.injEq .. ▸ ⟨htid.symm, hsrc, hdst⟩

/-- The squares of the threats of both colours. -/
def pairList (b : ShogiBoard) : List (Square × Square) :=
  colors.flatMap fun c => (threats b c).map fun t => (t.src, t.dst)

theorem nodup_pairList (ha : b.Agree) : (pairList b).Nodup :=
  nodup_flatMap_map nodup_colors (fun _ _ => nodup_threats)
    fun _ _ _ ht _ _ _ ht' h => threat_ext ha ht ht' h

theorem mem_pairList (ha : b.Agree) {x : Square × Square} : x ∈ pairList b ↔ x ∈ b.position.attackPairs := by
  have hocc := ha.occupied_eq
  simp only [pairList, List.mem_flatMap, List.mem_map]
  constructor
  · rintro ⟨c, -, t, ht, rfl⟩
    obtain ⟨-, -, hatt, hdst⟩ := mem_threats.mp ht
    exact ⟨_, man_of_mem_threats ha ht, hocc ▸ hatt, ha.mem_occupied.mp hdst⟩
  · rintro ⟨q, hman, hatt, hdst⟩
    have hvalid : q.type.isValid = true := by
      rw [man_eq] at hman
      split at hman
      · cases hman
      next hne => exact Option.some.inj hman ▸ ha.valid _ hne
    have hmem : (⟨typeId q.type, x.1, x.2⟩ : Threat) ∈ threats b q.color := by
      refine mem_threats.mpr ⟨typeId_lt hvalid, ?_, ?_, ha.mem_occupied.mpr hdst⟩
      · rw [typeFromId_typeId hvalid]
        exact ha.has_iff.mpr hman
      · rw [typeFromId_typeId hvalid, hocc]
        exact hatt
    refine ⟨q.color, ?_, _, hmem, rfl⟩
    cases q.color <;> decide

theorem ncard_attackPairs (ha : b.Agree) :
    b.position.attackPairs.ncard = (threats b .black).length + (threats b .white).length := by
  have hset : b.position.attackPairs = ↑(pairList b).toFinset := by
    ext x
    rw [← mem_pairList ha, Finset.mem_coe, List.mem_toFinset]
  rw [hset, Set.ncard_coe_finset, List.toFinset_card_of_nodup (nodup_pairList ha), pairList, colors]
  simp only [List.flatMap_cons, List.flatMap_nil, List.append_nil, List.length_append, List.length_map]

theorem slotMen_eq (ha : b.Agree) : b.position.slotMen =
    menCount b .black + menCount b .white + handCount b .black + handCount b .white := by
  rw [menCount_add ha, handCount_eq, handCount_eq, ← List.sum_map_add, ← List.sum_map_add]
  rfl

/-- The rows of group B. -/
theorem length_groupBFeatures (ha : b.Agree) :
    (groupBFeatures b).length = b.position.slotMen + b.position.attackPairs.ncard := by
  rw [slotMen_eq ha, ncard_attackPairs ha, groupBFeatures, colors]
  simp only [List.flatMap_cons, List.flatMap_nil, List.append_nil, List.length_append,
    List.length_map, length_boardSlots, length_handSlots]
  omega

end Count

/-! ## Sums in a cell -/

/-- What `UpdateRows` adds to lane `j`, in the order of its loops. -/
def rowSteps (base : Buffer (BitVec 8)) (stride : Nat) (adds subs : List Nat) (j : Nat) : List Int :=
  adds.map (fun r => (base.cell (r * stride + j)).toInt) ++
    subs.map fun r => -(base.cell (r * stride + j)).toInt

/-- No sum that `UpdateRows` stores in the first `n` lanes is cut: from the values that `acc` has, all
the sums on the way are in the range of `int16_t`. -/
def StaysInRange (acc : Buffer (BitVec 16)) (n : Nat) (base : Buffer (BitVec 8)) (stride : Nat)
    (adds subs : List Nat) : Prop :=
  ∀ j < n, ∀ y ∈ RunningSums.sums (acc.cell j).toInt (rowSteps base stride adds subs j),
    Simd.SignedRange 16 y

section Cells

variable {acc : Buffer (BitVec 16)} {n stride j m : Nat} {base : Buffer (BitVec 8)} {adds subs : List Nat}
  {x : BitVec 16}

theorem rowsLane_eq_foldl : Simd.rowsLane base stride adds subs j x =
    (rowSteps base stride adds subs j).foldl (fun z a => z + BitVec.ofInt 16 a) x := by
  have hsub : (fun (z : BitVec 16) r => z - (base.cell (r * stride + j)).signExtend 16) =
      fun z r => z + BitVec.ofInt 16 (-(base.cell (r * stride + j)).toInt) := by
    funext z r
    rw [BitVec.ofInt_neg, ← sub_eq_add_neg]
    rfl
  rw [rowSteps, List.foldl_append, List.foldl_map, List.foldl_map, Simd.rowsLane, hsub]
  rfl

/-- A cell holds the sum of its steps, cut to 16 bits. -/
theorem rowsLane_eq_ofInt : Simd.rowsLane base stride adds subs j x =
    BitVec.ofInt 16 (x.toInt + (rowSteps base stride adds subs j).sum) := by
  rw [rowsLane_eq_foldl, ← RunningSums.foldl_ofInt, BitVec.ofInt_toInt]

theorem sum_rowSteps : (rowSteps base stride adds subs j).sum =
    (adds.map fun r => (base.cell (r * stride + j)).toInt).sum -
      (subs.map fun r => (base.cell (r * stride + j)).toInt).sum := by
  rw [rowSteps, List.sum_append, sub_eq_add_neg, List.sum_neg, List.map_map]
  rfl

/-- In range, `UpdateRows` computes the sums. -/
theorem updateRows_exact (hacc : n ≤ acc.len) (hadds : ∀ r ∈ adds, r * stride + n ≤ base.len)
    (hsubs : ∀ r ∈ subs, r * stride + n ≤ base.len) (h : StaysInRange acc n base stride adds subs) :
    ∃ out, Simd.Scalar.updateRows acc n base stride adds subs = some out ∧ out.len = acc.len ∧
      ∀ j < n, (out.cell j).toInt = (acc.cell j).toInt + (rowSteps base stride adds subs j).sum := by
  refine ⟨_, Simd.Scalar.updateRows_eq hacc hadds hsubs, rfl, fun j hj => ?_⟩
  have hcell : (acc.sweep n (Simd.rowsLane base stride adds subs)).cell j =
      Simd.rowsLane base stride adds subs j (acc.cell j) := if_pos hj
  rw [hcell, rowsLane_eq_ofInt]
  exact (h j hj _ (RunningSums.sum_mem_sums _ _)).toInt_ofInt (by decide)

/-- Few rows of small weights keep small values in range. -/
theorem staysInRange_of_length (hbase : ∀ r ∈ adds ++ subs, ∀ j < n, |(base.cell (r * stride + j)).toInt| ≤ 127)
    (hacc : ∀ j < n, |(acc.cell j).toInt| ≤ m) (hm : m + 127 * (adds.length + subs.length) < 2 ^ 15) :
    StaysInRange acc n base stride adds subs := by
  intro j hj y hy
  have hsteps : ∀ a ∈ rowSteps base stride adds subs j, |a| ≤ 127 := by
    intro a ha
    rcases List.mem_append.mp ha with ha | ha <;> obtain ⟨r, hr, rfl⟩ := List.mem_map.mp ha
    · exact hbase r (List.mem_append_left _ hr) j hj
    · rw [abs_neg]
      exact hbase r (List.mem_append_right _ hr) j hj
  have hlen : (rowSteps base stride adds subs j).length = adds.length + subs.length := by
    rw [rowSteps, List.length_append, List.length_map, List.length_map]
  have hle := RunningSums.abs_le_of_mem_sums hsteps hy
  have hstart := hacc j hj
  rw [hlen] at hle
  rw [abs_le] at hle
  constructor <;> omega

end Cells

/-! ## Group A -/

/-- The clips of the trainer. -/
structure Clipped (w : Buffer (BitVec 8)) (bias : Buffer (BitVec 16)) : Prop where
  weight_le : ∀ i < w.len, |(w.cell i).toInt| ≤ 127
  bias_le : ∀ i < bias.len, |(bias.cell i).toInt| ≤ 8192

/-- The weight of a row of group A in a lane, as a number. -/
def ValueNet.exactWeight (net : ValueNet) (j r : Nat) : Int := (net.aW.cell (r * net.l1 + j)).toInt

/-- What a call is about is a board within the physical set. -/
def ValueScratch.Call.Within : ValueScratch.Call → Prop
  | .refresh b _ => b.Consistent ∧ b.WithinSet
  | .evaluate b => b.Consistent ∧ b.WithinSet
  | .reset => True

/-- A refresh for `b` in the frame of `p`: no sum in the accumulator is cut, neither with the rows that
come in nor with those that go out, and the result is the sum of the active rows. -/
def ValueScratch.RefreshExact (net : ValueNet) (s : ValueScratch) (b : ShogiBoard) (p : Color) : Prop :=
  ∃ acc st s', start net (s.cacheAcc p (kingFrameSq b p)) (s.state p (kingFrameSq b p)) = some (acc, st) ∧
    StaysInRange acc net.l1 net.aW net.l1 (groupADiff b p st).adds (groupADiff b p st).subs ∧
    s.refreshFrame net b p = some s' ∧
    ∀ j < net.l1, ((s'.cacheAcc p (kingFrameSq b p)).cell j).toInt =
      (net.aB.cell j).toInt + ((groupAFeatures b p).map (net.exactWeight j)).sum

/-- Group A on `b`, whatever boards within the set were evaluated before. -/
def ValueNet.GroupAExact (net : ValueNet) (b : ShogiBoard) : Prop :=
  ∀ (cells : Color → Square → Nat → BitVec 16) (calls : List ValueScratch.Call), (∀ x ∈ calls, x.Within) →
    ∃ s : ValueScratch, calls.foldlM (ValueScratch.call net) (.new net cells) = some s ∧ ∀ p, s.RefreshExact net b p

/-- The rows of a state that remembers a board, on any base. -/
theorem FrameState.Remembers.sum_slots {st : FrameState} {b : ShogiBoard} {p : Color} (h : st.Remembers b p)
    (base : Nat) (w : Nat → Int) : st.sum base p w = ((slots b p).map fun i => w (base + i)).sum := by
  have hshift : st.sum base p w = st.sum (kingBase b p) p fun i => w (base + (i - kingBase b p)) := by
    simp only [FrameState.sum, FrameState.boardRows, FrameState.handRows, List.map_map, Function.comp_def,
      Nat.add_sub_cancel_left]
  rw [hshift, h.sum_eq, groupAFeatures_eq, List.map_map]
  simp only [Function.comp_def, Nat.add_sub_cancel_left]

namespace ValueScratch

section GroupA

variable {net : ValueNet} {s : ValueScratch} {b : ShogiBoard} {p : Color} {k : Square}
  {acc : Buffer (BitVec 16)} {st : FrameState}

/-- An accumulator holds the sum of the rows of its state, and the state remembers a board of the set. -/
structure Holds (net : ValueNet) (p : Color) (k : Square) (acc : Buffer (BitVec 16)) (st : FrameState) : Prop where
  remembers : ∃ b, b.Consistent ∧ b.WithinSet ∧ st.Remembers b p
  cell : ∀ j < net.l1, (acc.cell j).toInt =
    (net.aB.cell j).toInt + st.sum (k.val * kNumSlots) p (net.exactWeight j)

/-- Every accumulator that is in use holds its sum. -/
structure AllHold (net : ValueNet) (s : ValueScratch) : Prop where
  len : ∀ p k, (s.cacheAcc p k).len = net.l1
  holds : ∀ p k, (s.state p k).initialized = true → Holds net p k (s.cacheAcc p k) (s.state p k)

theorem abs_exactWeight_le (hnet : Clipped net.aW net.aB) {j r : Nat} (hj : j < net.l1) (hr : r < kGroupAInputs) :
    |net.exactWeight j r| ≤ 127 := by
  refine hnet.weight_le _ ?_
  have hrow : (r + 1) * net.l1 ≤ kGroupAInputs * net.l1 := Nat.mul_le_mul_right _ hr
  rw [Nat.succ_mul] at hrow
  rw [net.len_aW]
  omega

/-- The sum of the rows of a board. -/
theorem Holds.abs_cell_le (hnet : Clipped net.aW net.aB) (h : Holds net p k acc st) {j : Nat} (hj : j < net.l1) :
    |(acc.cell j).toInt| ≤ 8192 + 127 * 38 := by
  obtain ⟨b, hb, hset, hst⟩ := h.remembers
  have hbias := hnet.bias_le j (net.len_aB ▸ hj)
  have hrows : ∀ a ∈ (slots b p).map fun i => net.exactWeight j (k.val * kNumSlots + i), |a| ≤ 127 := by
    intro a ha
    obtain ⟨i, hi, rfl⟩ := List.mem_map.mp ha
    have hslot : i < kNumSlots := lt_of_mem_slots hset hi
    refine abs_exactWeight_le hnet hj ?_
    have hk := k.isLt
    rw [kGroupAInputs]
    generalize kNumSlots = n at hslot ⊢
    nlinarith
  have hlen := length_slots_le (p := p) hb.toAgree hset
  have hsum := RunningSums.abs_sum_le hrows
  rw [List.length_map] at hsum
  rw [h.cell j hj, hst.sum_slots]
  refine (abs_add_le _ _).trans ?_
  omega

theorem holds_start (hlen : acc.len = net.l1) (h : st.initialized = true → Holds net p k acc st) :
    ∃ acc' st', start net acc st = some (acc', st') ∧ acc'.len = net.l1 ∧ Holds net p k acc' st' := by
  rw [start]
  by_cases hst : st.initialized = true
  · rw [if_pos hst]
    exact ⟨_, _, rfl, hlen, h hst⟩
  · rw [if_neg hst, Simd.Scalar.copyBias_eq hlen.ge net.len_aB.ge]
    refine ⟨_, _, rfl, hlen, ⟨.new, consistent_new, withinSet_new, ?_⟩, fun j hj => ?_⟩
    · rw [Bool.eq_false_iff.mpr hst]
      exact remembers_new p
    · have hempty : Bitboard.zero.squares = [] := by decide
      simp only [FrameState.sum, FrameState.boardRows, FrameState.handRows, hempty, BitVec.toNat_ofNat,
        Nat.zero_mod, List.range'_zero, List.map_nil, List.sum_nil, Finset.sum_const_zero, add_zero]
      exact congrArg BitVec.toInt (if_pos hj)

/-- A refresh is exact and leaves an accumulator that holds its sum. -/
theorem refreshFrame_exact (hnet : Clipped net.aW net.aB) (h : AllHold net s) (hb : b.Consistent)
    (hset : b.WithinSet) (p : Color) :
    s.RefreshExact net b p ∧ ∃ s', s.refreshFrame net b p = some s' ∧ AllHold net s' := by
  obtain ⟨acc, st, hstart, hlen, hholds⟩ := holds_start (h.len p (kingFrameSq b p)) (h.holds p (kingFrameSq b p))
  obtain ⟨d, hd⟩ : ∃ d, groupADiff b p st = d := ⟨_, rfl⟩
  have hrows := groupADiff_rows_lt b p st
  obtain ⟨hstate, -⟩ := groupADiff_state b p st
  have hbalance := fun j => groupADiff_balance b p st (net.exactWeight j)
  obtain ⟨b', hb', hset', hst⟩ := hholds.remembers
  obtain ⟨hadds, hsubs⟩ := fits_diff hb.toAgree hset hb'.toAgree hset' hst
  have hin : ∀ r < kGroupAInputs, r * net.l1 + net.l1 ≤ net.aW.len := by
    intro r hr
    rw [net.len_aW, ← Nat.succ_mul]
    exact Nat.mul_le_mul_right _ hr
  rw [hd] at hrows hstate hadds hsubs
  simp only [hd, kingBase] at hbalance
  have hrange : StaysInRange acc net.l1 net.aW net.l1 d.adds d.subs := by
    refine staysInRange_of_length (m := 8192 + 127 * 38) ?_ ?_ ?_
    · exact fun r hr j hj => abs_exactWeight_le hnet hj (hrows r hr)
    · exact fun j hj => hholds.abs_cell_le hnet hj
    · have h1 := hadds.length_le
      have h2 := hsubs.length_le
      omega
  obtain ⟨out, hupdate, hout, hcells⟩ := updateRows_exact hlen.ge
    (fun r hr => hin r (hrows r (List.mem_append_left _ hr)))
    (fun r hr => hin r (hrows r (List.mem_append_right _ hr))) hrange
  have hnew : Holds net p (kingFrameSq b p) out d.state := by
    refine ⟨⟨b, hb, hset, hstate⟩, fun j hj => ?_⟩
    have hsteps : (rowSteps net.aW net.l1 d.adds d.subs j).sum =
        d.state.sum (kingFrameSq b p * kNumSlots) p (net.exactWeight j) -
          st.sum (kingFrameSq b p * kNumSlots) p (net.exactWeight j) := sum_rowSteps.trans (hbalance j)
    rw [hcells j hj, hholds.cell j hj, hsteps]
    omega
  have hrefresh : s.refreshFrame net b p = some (s.put p (kingFrameSq b p) out d.state) := by
    simp only [refreshFrame, hstart, hd, hupdate, Option.bind_eq_bind, Option.bind_some]
    rfl
  refine ⟨⟨acc, st, _, hstart, hd ▸ hrange, hrefresh, fun j hj => ?_⟩, _, hrefresh, ?_, ?_⟩
  · rw [cacheAcc_put, hnew.cell j hj, ← hstate.sum_eq, kingBase]
  · intro q l
    by_cases hql : q = p ∧ l = kingFrameSq b p
    · rw [hql.1, hql.2, cacheAcc_put, hout, hlen]
    · rw [(put_of_ne hql).1, h.len]
  · intro q l
    by_cases hql : q = p ∧ l = kingFrameSq b p
    · rw [hql.1, hql.2, cacheAcc_put, state_put]
      exact fun _ => hnew
    · rw [(put_of_ne hql).1, (put_of_ne hql).2]
      exact h.holds q l

theorem allHold_call (hnet : Clipped net.aW net.aB) (h : AllHold net s) {x : Call} (hx : x.Within) :
    ∃ s', s.call net x = some s' ∧ AllHold net s' := by
  cases x with
  | refresh b p => exact (refreshFrame_exact hnet h hx.1 hx.2 p).2
  | evaluate b =>
    obtain ⟨s1, hs1, h1⟩ := (refreshFrame_exact hnet h hx.1 hx.2 b.sideToMove).2
    obtain ⟨s2, hs2, h2⟩ := (refreshFrame_exact hnet h1 hx.1 hx.2 (~~~b.sideToMove)).2
    refine ⟨s2, ?_, h2⟩
    rw [call, evaluateFrames, hs1]
    exact hs2
  | reset => exact ⟨_, rfl, h.len, fun _ _ h => by cases h⟩

theorem allHold_run (hnet : Clipped net.aW net.aB) (calls : List Call) (hcalls : ∀ x ∈ calls, x.Within)
    (h : AllHold net s) : ∃ s', calls.foldlM (call net) s = some s' ∧ AllHold net s' := by
  induction calls generalizing s with
  | nil => exact ⟨s, rfl, h⟩
  | cons x calls ih =>
    obtain ⟨hx, hcalls⟩ := List.forall_mem_cons.mp hcalls
    obtain ⟨s', hs', h'⟩ := allHold_call hnet h hx
    rw [List.foldlM_cons, hs']
    exact ih hcalls h'

end GroupA

end ValueScratch

/-- Group A never leaves the range. -/
theorem groupAExact {net : ValueNet} (hnet : Clipped net.aW net.aB) {b : ShogiBoard} (hb : b.Consistent)
    (hset : b.WithinSet) : net.GroupAExact b := by
  intro cells calls hcalls
  obtain ⟨s, hs, h⟩ := ValueScratch.allHold_run hnet calls hcalls (s := .new net cells)
    ⟨fun _ _ => rfl, fun _ _ h => by cases h⟩
  exact ⟨s, hs, fun p => (ValueScratch.refreshFrame_exact hnet h hb hset p).1⟩

/-! ## Group B -/

/-- The first layer of `ValueNet` with group B. -/
structure FirstLayer extends ValueNet where
  bW : Buffer (BitVec 8)
  bB : Buffer (BitVec 16)
  len_bW : bW.len = kGroupBInputs * l1
  len_bB : bB.len = l1

namespace FirstLayer

variable (net : FirstLayer)

/-- Both groups are within the clips. -/
structure Clipped : Prop where
  groupA : Nnue.Clipped net.aW net.aB
  groupB : Nnue.Clipped net.bW net.bB

/-- Group B in `Evaluate`. -/
def evaluateB (accB : Buffer (BitVec 16)) (b : ShogiBoard) : Option (Buffer (BitVec 16)) := do
  let acc ← Simd.Scalar.copyBias accB net.bB net.l1
  Simd.Scalar.updateRows acc net.l1 net.bW net.l1 (groupBFeatures b) []

/-- The sum of the active rows of group B in a lane. -/
def exactB (b : ShogiBoard) (j : Nat) : Int :=
  (net.bB.cell j).toInt + ((groupBFeatures b).map fun r => (net.bW.cell (r * net.l1 + j)).toInt).sum

/-- Group B on `b`, whatever the buffer held: no sum is cut, and the result is the sum of the active rows. -/
def GroupBExact (b : ShogiBoard) : Prop :=
  ∀ accB : Buffer (BitVec 16), accB.len = net.l1 → ∃ acc out,
    Simd.Scalar.copyBias accB net.bB net.l1 = some acc ∧
    StaysInRange acc net.l1 net.bW net.l1 (groupBFeatures b) [] ∧
    net.evaluateB accB b = some out ∧ ∀ j < net.l1, (out.cell j).toInt = net.exactB b j

/-- The accumulators of both groups. -/
def AccumulatorsExact (b : ShogiBoard) : Prop := net.toValueNet.GroupAExact b ∧ net.GroupBExact b

variable {net} {b : ShogiBoard} {accB : Buffer (BitVec 16)}

theorem copyBias_bB (net : FirstLayer) (hlen : accB.len = net.l1) :
    ∃ acc, Simd.Scalar.copyBias accB net.bB net.l1 = some acc ∧ acc.len = net.l1 ∧
      ∀ j < net.l1, acc.cell j = net.bB.cell j :=
  ⟨_, Simd.Scalar.copyBias_eq hlen.ge net.len_bB.ge, hlen, fun _ hj => if_pos hj⟩

theorem row_bW_le (net : FirstLayer) {r : Nat} (hr : r < kGroupBInputs) : r * net.l1 + net.l1 ≤ net.bW.len := by
  rw [net.len_bW, ← Nat.succ_mul]
  exact Nat.mul_le_mul_right _ hr

theorem groupBExact_of_length_le (hnet : net.Clipped) (hb : b.Consistent) (hset : b.WithinSet)
    (hlen : (groupBFeatures b).length ≤ 193) : net.GroupBExact b := by
  intro accB haccB
  obtain ⟨acc, hcopy, hacc, hcell⟩ := copyBias_bB net haccB
  have hfits := fits_groupB hb.toAgree hset
  have hrange : StaysInRange acc net.l1 net.bW net.l1 (groupBFeatures b) [] := by
    refine staysInRange_of_length (m := 8192) ?_ ?_ ?_
    · intro r hr j hj
      rw [List.append_nil] at hr
      have hrow := row_bW_le net (hfits.lt r hr)
      exact hnet.groupB.weight_le _ (by omega)
    · intro j hj
      rw [hcell j hj]
      exact hnet.groupB.bias_le j (net.len_bB ▸ hj)
    · rw [List.length_nil]
      omega
  obtain ⟨out, hupdate, -, hcells⟩ := updateRows_exact hacc.ge (fun r hr => row_bW_le net (hfits.lt r hr))
    (fun r hr => absurd hr List.not_mem_nil) hrange
  refine ⟨acc, out, hcopy, hrange, ?_, fun j hj => ?_⟩
  · rw [evaluateB, hcopy]
    exact hupdate
  · rw [hcells j hj, hcell j hj, sum_rowSteps, List.map_nil, List.sum_nil, sub_zero, exactB]

/-- The network with the largest weights and biases that the clips admit. -/
def largest : FirstLayer where
  l1 := 256
  aW := ⟨kGroupAInputs * 256, fun _ => 127#8⟩
  aB := ⟨256, fun _ => 8192#16⟩
  pos := by decide
  mod := by decide
  len_aW := rfl
  len_aB := rfl
  bW := ⟨kGroupBInputs * 256, fun _ => 127#8⟩
  bB := ⟨256, fun _ => 8192#16⟩
  len_bW := rfl
  len_bB := rfl

theorem clipped_largest : largest.Clipped :=
  have hweight : |(127#8).toInt| ≤ 127 := by decide
  have hbias : |(8192#16).toInt| ≤ 8192 := by decide
  ⟨⟨fun _ _ => hweight, fun _ _ => hbias⟩, ⟨fun _ _ => hweight, fun _ _ => hbias⟩⟩

/-- Its cells leave the range with the 194th row. -/
theorem not_groupBExact_largest (h : 193 < (groupBFeatures b).length) : ¬ largest.GroupBExact b := by
  intro hexact
  obtain ⟨acc, out, hcopy, hrange, -, -⟩ := hexact ⟨256, fun _ => 0#16⟩ rfl
  obtain ⟨acc', hcopy', -, hcell⟩ := @copyBias_bB ⟨256, fun _ => 0#16⟩ largest rfl
  obtain rfl := Option.some.inj (hcopy.symm.trans hcopy')
  have hsum := hrange 0 (by decide) _ (RunningSums.sum_mem_sums _ _)
  have hrows : ((groupBFeatures b).map fun r => (largest.bW.cell (r * largest.l1 + 0)).toInt).sum =
      127 * (groupBFeatures b).length := by
    have hconst : (fun r => (largest.bW.cell (r * largest.l1 + 0)).toInt) = fun _ => 127 := by
      funext r
      exact (rfl : (127#8).toInt = 127)
    rw [hconst, List.map_const', List.sum_replicate, nsmul_eq_mul, mul_comm]
  have hbias : (acc.cell 0).toInt = 8192 := by
    rw [hcell 0 (by decide)]
    decide
  rw [sum_rowSteps, hrows, hbias, List.map_nil, List.sum_nil, sub_zero] at hsum
  have hhigh := hsum.2
  omega

end FirstLayer

/-- For every board within the physical set: the accumulators of both groups are exact with all networks that
the clips admit if and only if no more than 193 rows of group B are active, which are the men other than
kings and the pairs of a man and a man that it attacks. Group A is exact in any case. -/
theorem accumulatorsExact_iff (b : ShogiBoard) (hb : b.Consistent) (hset : b.WithinSet) :
    ((∀ net : FirstLayer, net.Clipped → net.AccumulatorsExact b) ↔
        b.position.slotMen + b.position.attackPairs.ncard ≤ 193) ∧
      ∀ net : FirstLayer, net.Clipped → net.toValueNet.GroupAExact b := by
  have hA : ∀ net : FirstLayer, net.Clipped → net.toValueNet.GroupAExact b :=
    fun net hnet => groupAExact hnet.groupA hb hset
  rw [← length_groupBFeatures hb.toAgree]
  refine ⟨⟨fun hall => ?_, fun hle net hnet => ⟨hA net hnet, ?_⟩⟩, hA⟩
  · by_contra hlt
    exact FirstLayer.not_groupBExact_largest (not_le.mp hlt)
      (hall FirstLayer.largest FirstLayer.clipped_largest).2
  · exact FirstLayer.groupBExact_of_length_le hnet hb hset hle

/-- In the ending with a gold and a pawn few rows are active. -/
theorem accumulatorsExact_goldMeetsPawn : goldMeetsPawn.Consistent ∧ goldMeetsPawn.WithinSet ∧
    ∀ net : FirstLayer, net.Clipped → net.AccumulatorsExact goldMeetsPawn := by
  have hlen : (groupBFeatures goldMeetsPawn).length ≤ 193 := by decide +kernel
  refine ⟨consistent_goldMeetsPawn, withinSet_goldMeetsPawn, ?_⟩
  refine (accumulatorsExact_iff goldMeetsPawn consistent_goldMeetsPawn withinSet_goldMeetsPawn).1.mpr ?_
  rw [← length_groupBFeatures consistent_goldMeetsPawn.toAgree]
  exact hlen

/-- All men but the white king stand side by side, promoted as far as possible. -/
def crowdTypes : List (Nat × PieceType) :=
  [(7, .proPawn), (2, .horse), (1, .dragon), (3, .proPawn), (1, .dragon), (1, .king), (8, .proPawn),
    (4, .proLance), (4, .proKnight), (4, .proSilver), (4, .gold)]

/-- The white king stands alone in its corner. -/
def crowdMen : List (Square × Piece) :=
  (.fromIdx 80, ⟨.white, .king⟩) :: (crowdTypes.flatMap fun x => List.replicate x.1 x.2).zipIdx.map fun x =>
    (.fromIdx (9 * (x.2 / 6 + 1) + x.2 % 6 + 2), ⟨.black, x.1⟩)

def crowd : ShogiBoard := ShogiBoard.new.placeAll crowdMen

theorem consistent_crowd : crowd.Consistent := by
  refine consistent_placeAll consistent_new ⟨by decide, ?_, by decide, by decide, ?_⟩
  · exact fun _ _ => rfl
  · exact fun _ _ _ => rfl

theorem withinSet_crowd : crowd.WithinSet := ⟨by decide +kernel, fun _ => Hand.clean_empty⟩

/-- 233 rows are active: the sum 8192 + 127 * 233 does not fit into 16 bits. -/
theorem not_accumulatorsExact_crowd : crowd.Consistent ∧ crowd.WithinSet ∧ FirstLayer.largest.Clipped ∧
    (groupBFeatures crowd).length = 233 ∧ ¬ FirstLayer.largest.AccumulatorsExact crowd := by
  have hlen : (groupBFeatures crowd).length = 233 := by decide +kernel
  refine ⟨consistent_crowd, withinSet_crowd, FirstLayer.clipped_largest, hlen, fun h => ?_⟩
  exact FirstLayer.not_groupBExact_largest (by omega) h.2

end Nnue

end Shogi
