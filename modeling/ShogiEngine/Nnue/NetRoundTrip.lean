import ShogiEngine.Nnue.NetFile

/-!
# Written network files

What `Write` leaves is read back by `Load`, and `Tensor` finds the bytes of every tensor that was
added.

## Main definitions

- `TensorData`: what is added to a writer
- `NetWriter.layout`: the entries of a writer, each padded to a multiple of 64 bytes

## Main results

- `tensor_layout`: a tensor is found by its name, and its bytes lie at its place
- `accepted_write`, `load_write`: a written file is read back
-/

namespace Shogi

namespace Nnue

open LittleEndian

/-- The arguments of `AddTensor`. -/
structure TensorData where
  name : List Byte
  dtype : DType
  shape : List (BitVec 64)
  data : List Byte

namespace TensorData

/-- A C string of at most 15 characters, one to three sizes, and as many bytes as they say. -/
structure Valid (t : TensorData) : Prop where
  name_le : t.name.length ≤ 15
  name_ne : ∀ c ∈ t.name, c ≠ 0#8
  rank : 1 ≤ t.shape.length ∧ t.shape.length ≤ 3
  data : t.data.length = (NetWriter.byteSize t.dtype t.shape).toNat

/-- The space that the tensor takes in the payload. -/
def space (t : TensorData) : Nat := (t.data.length + 63) / 64 * 64

/-- The entry of the tensor, at a place in the payload. -/
def entry (t : TensorData) (offset : BitVec 64) : NetWriter.Entry where
  desc := {
    name := .ofFn fun i => (t.name.take 15).getD i 0#8
    dtype := t.dtype.code
    rank := BitVec.ofNat 32 t.shape.length
    shape := .ofFn fun i => t.shape.getD i 0#64
    offset := offset
    reserved := .replicate 8 0#8 }
  data := t.data
  bytes := NetWriter.byteSize t.dtype t.shape

end TensorData

namespace NetWriter

/-- The tensors one after the other. -/
def addAll (w : NetWriter) (ts : List TensorData) : NetWriter :=
  ts.foldl (fun w t => w.addTensor t.name t.dtype t.shape t.data) w

/-- The entries of tensors from a place on. -/
def layout : List TensorData → BitVec 64 → List Entry
  | [], _ => []
  | t :: ts, offset => t.entry offset :: layout ts (offset + padded (byteSize t.dtype t.shape))

/-- The payload of entries. -/
def payload (entries : List Entry) : List Byte := entries.flatMap fun e => e.written ++ e.padding

variable {t : TensorData} {ts : List TensorData} {o : BitVec 64} {w : NetWriter}

theorem entries_addAll : (w.addAll ts).entries = w.entries ++ layout ts w.payloadBytes := by
  induction ts generalizing w with
  | nil => rw [addAll, List.foldl_nil, layout, List.append_nil]
  | cons t ts ih =>
    have hrest := ih (w := w.addTensor t.name t.dtype t.shape t.data)
    rw [addAll] at hrest ⊢
    rw [List.foldl_cons, hrest, addTensor, layout, List.append_assoc]
    rfl

theorem length_layout : (layout ts o).length = ts.length := by
  induction ts generalizing o with
  | nil => rfl
  | cons t ts ih => rw [layout, List.length_cons, ih, List.length_cons]

/-! ## Space in the payload -/

theorem toNat_padded {n : BitVec 64} (h : (n.toNat + 63) / 64 * 64 < 2 ^ 64) :
    (padded n).toNat = (n.toNat + 63) / 64 * 64 := by
  have hadd : (n + 63#64).toNat = n.toNat + 63 := by
    rw [BitVec.toNat_add]
    exact Nat.mod_eq_of_lt (by simp only [BitVec.toNat_ofNat]; omega)
  rw [padded, BitVec.toNat_mul, BitVec.toNat_udiv, hadd]
  exact Nat.mod_eq_of_lt h

theorem toNat_padded_sub {n : BitVec 64} (h : (n.toNat + 63) / 64 * 64 < 2 ^ 64) :
    (padded n - n).toNat = (n.toNat + 63) / 64 * 64 - n.toNat := by
  have hn := n.isLt
  rw [BitVec.toNat_sub, toNat_padded h]
  omega

/-- The space that tensors take. -/
def totalSpace (ts : List TensorData) : Nat := (ts.map TensorData.space).sum

theorem totalSpace_cons : totalSpace (t :: ts) = t.space + totalSpace ts := rfl

theorem written_entry (ht : t.Valid) : (t.entry o).written = t.data := by
  rw [Entry.written, TensorData.entry, ← ht.data, List.take_length]

theorem length_entry (ht : t.Valid) (h : t.space < 2 ^ 64) :
    ((t.entry o).written ++ (t.entry o).padding).length = t.space := by
  rw [TensorData.space, ht.data] at h ⊢
  rw [List.length_append, written_entry ht, Entry.padding, List.length_replicate,
    show (t.entry o).bytes = byteSize t.dtype t.shape from rfl, toNat_padded_sub h, ht.data]
  omega

theorem toNat_next (ht : t.Valid) (h : o.toNat + t.space < 2 ^ 64) :
    (o + padded (byteSize t.dtype t.shape)).toNat = o.toNat + t.space := by
  rw [TensorData.space, ht.data] at h ⊢
  rw [BitVec.toNat_add, toNat_padded (by omega), Nat.mod_eq_of_lt h]

/-- The writer's count of the payload. -/
theorem payloadBytes_addAll (hts : ∀ t ∈ ts, t.Valid)
    (h : w.payloadBytes.toNat + totalSpace ts < 2 ^ 64) :
    (w.addAll ts).payloadBytes.toNat = w.payloadBytes.toNat + totalSpace ts := by
  induction ts generalizing w with
  | nil => rfl
  | cons t ts ih =>
    rw [totalSpace_cons] at h ⊢
    obtain ⟨ht, hts⟩ := List.forall_mem_cons.mp hts
    have hnext : (w.addTensor t.name t.dtype t.shape t.data).payloadBytes.toNat =
        w.payloadBytes.toNat + t.space := toNat_next ht (by omega)
    have hrest := ih (w := w.addTensor t.name t.dtype t.shape t.data) hts (by omega)
    rw [addAll] at hrest ⊢
    rw [List.foldl_cons, hrest, hnext]
    omega

theorem length_payload (hts : ∀ t ∈ ts, t.Valid) (h : totalSpace ts < 2 ^ 64) :
    (payload (layout ts o)).length = totalSpace ts := by
  induction ts generalizing o with
  | nil => rfl
  | cons t ts ih =>
    obtain ⟨ht, hts⟩ := List.forall_mem_cons.mp hts
    rw [totalSpace_cons] at h ⊢
    have hrest := ih (o := o + padded (byteSize t.dtype t.shape)) hts (by omega)
    rw [payload] at hrest ⊢
    rw [layout, List.flatMap_cons, List.length_append, length_entry ht (by omega), hrest]

/-! ## The checksum of the payload -/

theorem payloadCrc_eq (entries : List Entry) : payloadCrc entries = crc32c (payload entries) 0#32 := by
  suffices h : ∀ crc, entries.foldl (fun crc e =>
      let crc := crc32c e.written crc
      if e.padding.isEmpty then crc else crc32c e.padding crc) crc = crc32c (payload entries) crc from
    h 0#32
  intro crc
  induction entries generalizing crc with
  | nil => exact (crc32c_nil crc).symm
  | cons e entries ih =>
    have hpad : (if e.padding.isEmpty then crc32c e.written crc
        else crc32c e.padding (crc32c e.written crc)) = crc32c (e.written ++ e.padding) crc := by
      rw [crc32c_append]
      split
      · rename_i hnil
        rw [List.isEmpty_iff.mp hnil, crc32c_nil]
      · rfl
    rw [List.foldl_cons, ih, payload, payload, List.flatMap_cons, crc32c_append, ← hpad]

/-! ## Finding a tensor by its name -/

/-- Names that fit are equal exactly where `strncmp` finds them so. -/
theorem strncmpEq_iff {n : Nat} {a b : List Byte} (ha : ∀ c ∈ a, c ≠ 0#8) (hb : ∀ c ∈ b, c ≠ 0#8)
    (hlt : a.length < n) (k : Nat) :
    strncmpEq n (a ++ List.replicate k 0#8) b = true ↔ a = b := by
  induction a generalizing n b with
  | nil =>
    obtain ⟨n, rfl⟩ : ∃ m, n = m + 1 := ⟨n - 1, by rw [List.length_nil] at hlt; omega⟩
    have hhead : (([] : List Byte) ++ List.replicate k 0#8).headD 0#8 = 0#8 := by
      cases k <;> rfl
    rw [strncmpEq, hhead]
    cases b with
    | nil => simp
    | cons y b =>
      have hy := hb y List.mem_cons_self
      rw [List.headD_cons, decide_eq_false (Ne.symm hy), Bool.false_and]
      exact iff_of_false Bool.false_ne_true fun h => by cases h
  | cons x a ih =>
    obtain ⟨n, rfl⟩ : ∃ m, n = m + 1 := ⟨n - 1, by rw [List.length_cons] at hlt; omega⟩
    obtain ⟨hx, ha⟩ := List.forall_mem_cons.mp ha
    rw [strncmpEq, List.cons_append, List.headD_cons, List.tail_cons, decide_eq_false hx,
      Bool.false_or, Bool.and_eq_true, decide_eq_true_eq]
    cases b with
    | nil => exact iff_of_false (fun h => hx h.1) fun h => by cases h
    | cons y b =>
      obtain ⟨hy, hb⟩ := List.forall_mem_cons.mp hb
      rw [List.headD_cons, List.tail_cons, ih ha hb (by rw [List.length_cons] at hlt; omega),
        List.cons.injEq]

theorem toList_ofFn_getD {α : Type} {n : Nat} {l : List α} (h : l.length ≤ n) (x : α) :
    (Vector.ofFn fun i : Fin n => l.getD i x).toList = l ++ List.replicate (n - l.length) x := by
  apply List.ext_getElem
  · simp
    omega
  · intro i h1 h2
    simp only [Vector.toList_ofFn, List.getElem_ofFn, List.getD_eq_getElem?_getD,
      List.getElem_append, List.getElem_replicate]
    split
    · rename_i hi
      rw [List.getElem?_eq_getElem hi, Option.getD_some]
    · rename_i hi
      rw [List.getElem?_eq_none (not_lt.mp hi), Option.getD_none]

theorem name_entry (ht : t.Valid) : (t.entry o).desc.name.toList =
    t.name ++ List.replicate (16 - t.name.length) 0#8 := by
  have htake : t.name.take 15 = t.name := List.take_of_length_le ht.name_le
  have hle := ht.name_le
  rw [TensorData.entry, htake]
  exact toList_ofFn_getD (by omega) 0#8

theorem rank_entry (ht : t.Valid) : (t.entry o).desc.rank.toNat = t.shape.length := by
  have hle := ht.rank.2
  rw [TensorData.entry, BitVec.toNat_ofNat]
  omega

theorem shape_entry (ht : t.Valid) : (t.entry o).desc.shape.toList =
    t.shape ++ List.replicate (3 - t.shape.length) 0#64 :=
  toList_ofFn_getD ht.rank.2 0#64

/-- The shape that was given matches the one that is stored. -/
theorem any_zip_shape (ht : t.Valid) : ((t.shape.zip (t.entry o).desc.shape.toList).any
    fun x => x.1 ≠ 0#64 && x.1 ≠ x.2) = false := by
  rw [shape_entry ht, List.any_eq_false]
  have hzip : ∀ (l r : List (BitVec 64)), ∀ x ∈ l.zip (l ++ r), x.1 = x.2 := by
    intro l r
    induction l with
    | nil => exact fun x hx => absurd hx List.not_mem_nil
    | cons y l ih =>
      rw [List.cons_append, List.zip_cons_cons]
      exact List.forall_mem_cons.mpr ⟨rfl, ih⟩
  intro x hx
  simp [hzip _ _ x hx]

/-- A tensor is found by its name, and its bytes lie at its place. -/
theorem tensor_layout (hts : ∀ t ∈ ts, t.Valid) (hnames : (ts.map TensorData.name).Nodup)
    (hfit : o.toNat + totalSpace ts < 2 ^ 64) (ht : t ∈ ts) :
    ∃ p : BitVec 64,
      NetFile.tensorAmong t.name t.dtype t.shape ((layout ts o).map Entry.desc) = .ok p ∧
      o.toNat ≤ p.toNat ∧ p.toNat + t.data.length ≤ o.toNat + totalSpace ts ∧
      ((payload (layout ts o)).drop (p.toNat - o.toNat)).take t.data.length = t.data := by
  induction ts generalizing o with
  | nil => exact absurd ht List.not_mem_nil
  | cons a ts ih =>
    obtain ⟨ha, hts⟩ := List.forall_mem_cons.mp hts
    rw [List.map_cons, List.nodup_cons] at hnames
    rw [totalSpace_cons] at hfit ⊢
    rw [layout, List.map_cons, NetFile.tensorAmong, name_entry ha, payload, List.flatMap_cons]
    rcases List.mem_cons.mp ht with rfl | hmem
    · -- the first descriptor is the one
      have hname := (@strncmpEq_iff 16 t.name t.name ha.name_ne ha.name_ne
        (Nat.lt_succ_of_le ha.name_le) (16 - t.name.length)).mpr rfl
      have hspace : t.data.length ≤ t.space := by
        rw [TensorData.space]
        omega
      refine ⟨o, ?_, le_rfl, by omega, ?_⟩
      · rw [hname, Bool.not_true, if_neg Bool.false_ne_true,
          if_neg (not_not.mpr (show (t.entry o).desc.dtype = t.dtype.code from rfl)),
          if_neg (not_not.mpr (rank_entry ha)), any_zip_shape ha, if_neg Bool.false_ne_true]
        rfl
      · rw [Nat.sub_self, List.drop_zero, written_entry ha, List.append_assoc, List.take_left' rfl]
    · -- names are distinct, so that the search goes on
      have hne : a.name ≠ t.name := by
        intro h
        exact hnames.1 (h ▸ List.mem_map_of_mem hmem)
      have hname : strncmpEq 16 (a.name ++ List.replicate (16 - a.name.length) 0#8) t.name =
          false := by
        rw [← Bool.not_eq_true, strncmpEq_iff ha.name_ne (hts t hmem).name_ne
          (Nat.lt_succ_of_le ha.name_le)]
        exact hne
      have hnext := toNat_next (o := o) ha (by omega)
      obtain ⟨p, hp, hle, hend, hbytes⟩ :=
        ih (o := o + padded (byteSize a.dtype a.shape)) hts hnames.2 (by omega) hmem
      refine ⟨p, ?_, by omega, by omega, ?_⟩
      · rw [hname, Bool.not_false, if_pos rfl, hp]
      · rw [payload, hnext] at hbytes
        rw [show p.toNat - o.toNat = a.space + (p.toNat - (o.toNat + a.space)) by omega,
          ← List.drop_drop, List.drop_left' (length_entry ha (by omega)), hbytes]

/-! ## Passing the checks -/

theorem byteSize_entry (ht : t.Valid) :
    (t.entry o).desc.byteSize = byteSize t.dtype t.shape := by
  rw [TensorDesc.byteSize, rank_entry ht, shape_entry ht, List.take_left' rfl, byteSize,
    List.take_of_length_le ht.rank.2]
  rfl

theorem dtypeSize_code_ne (t : DType) : dtypeSize t.code ≠ 0#64 := by
  cases t <;> decide

theorem checkDesc_layout {path : String} {payloadBytes : BitVec 64} (hts : ∀ t ∈ ts, t.Valid)
    (hpb : payloadBytes.toNat = o.toNat + totalSpace ts) (h64 : o.toNat % 64 = 0) :
    ∀ d ∈ (layout ts o).map Entry.desc, NetFile.checkDesc path payloadBytes d = .ok () := by
  induction ts generalizing o with
  | nil => exact fun d hd => absurd hd List.not_mem_nil
  | cons t ts ih =>
    obtain ⟨ht, hts⟩ := List.forall_mem_cons.mp hts
    have hlt := payloadBytes.isLt
    rw [totalSpace_cons] at hpb
    have hnext := toNat_next (o := o) ht (by omega)
    have hspace : t.data.length ≤ t.space ∧ t.space % 64 = 0 := by
      rw [TensorData.space]
      omega
    rw [layout, List.map_cons, List.forall_mem_cons]
    refine ⟨checkDesc_eq_ok.mpr ⟨dtypeSize_code_ne t.dtype, ?_, ?_, ?_, ?_⟩,
      ih hts (by omega) (by omega)⟩
    · intro h
      have hr := rank_entry (o := o) ht
      have h1 := ht.rank.1
      rw [h, BitVec.toNat_ofNat] at hr
      omega
    · rw [BitVec.le_def, rank_entry ht]
      exact ht.rank.2
    · apply BitVec.eq_of_toNat_eq
      rw [BitVec.toNat_umod]
      exact h64
    · have hsize := ht.data
      rw [byteSize_entry ht, BitVec.le_def, BitVec.toNat_add, ← hsize,
        show (t.entry o).desc.offset = o from rfl]
      omega

theorem readAll_append (ds : List TensorDesc) (rest : List Byte) :
    TensorDesc.readAll ds.length (ds.flatMap TensorDesc.bytes ++ rest) = ds := by
  induction ds with
  | nil => rfl
  | cons d ds ih =>
    rw [List.flatMap_cons, List.append_assoc, List.length_cons, TensorDesc.readAll,
      TensorDesc.ofBytes_bytes, List.drop_left' d.length_bytes, ih]

theorem length_flatMap_bytes (ds : List TensorDesc) :
    (ds.flatMap TensorDesc.bytes).length = 64 * ds.length := by
  induction ds with
  | nil => rfl
  | cons d ds ih =>
    rw [List.flatMap_cons, List.length_append, d.length_bytes, ih, List.length_cons, Nat.mul_succ,
      Nat.add_comm]

/-- A written file is accepted, and read as it was laid out. -/
theorem accepted_write (ts : List TensorData) (header : NetHeader) (path : String)
    (hcount : 1 ≤ ts.length ∧ ts.length ≤ 64) (hts : ∀ t ∈ ts, t.Valid)
    (hfit : totalSpace ts < 2 ^ 64) : Accepted path ((new.addAll ts).write header)
      ⟨(new.addAll ts).sealed header, (layout ts 0#64).map Entry.desc, payload (layout ts 0#64)⟩ := by
  have hentries : (new.addAll ts).entries = layout ts 0#64 := entries_addAll
  have hpb : (new.addAll ts).payloadBytes.toNat = totalSpace ts := by
    rw [payloadBytes_addAll hts (by rw [new, BitVec.toNat_ofNat]; omega)]
    exact Nat.zero_add _
  have hlen : (layout ts 0#64).length = ts.length := length_layout
  have hpayload := length_payload (o := 0#64) hts hfit
  generalize hw : new.addAll ts = w at hentries hpb ⊢
  have hn : (w.sealed header).nTensors.toNat = ts.length := by
    rw [sealed, hentries, hlen, BitVec.toNat_ofNat]
    omega
  have hfile : w.write header = (w.sealed header).bytes ++
      (((layout ts 0#64).map Entry.desc).flatMap TensorDesc.bytes ++ payload (layout ts 0#64)) := by
    rw [write, hentries, List.flatMap_map, List.append_assoc, payload]
  have htable : (w.write header).drop 256 =
      ((layout ts 0#64).map Entry.desc).flatMap TensorDesc.bytes ++ payload (layout ts 0#64) := by
    rw [hfile, List.drop_left' (NetHeader.length_bytes _)]
  have hdescs : (((layout ts 0#64).map Entry.desc).flatMap TensorDesc.bytes).length =
      64 * (w.sealed header).nTensors.toNat := by
    rw [length_flatMap_bytes, List.length_map, hlen, hn]
  have hrest : ((w.write header).drop 256).drop (64 * (w.sealed header).nTensors.toNat) =
      payload (layout ts 0#64) := by
    rw [htable, List.drop_left' hdescs]
  have hcrc : payloadCrc w.entries = crc32c (payload (layout ts 0#64)) 0#32 := by
    rw [hentries, payloadCrc_eq]
  refine ⟨?_, ?_, ?_, ?_, rfl, rfl, rfl, ⟨?_, ?_⟩, ?_, ?_, hcrc.symm, ?_⟩
  · rw [hfile, NetHeader.ofBytes_bytes]
  · rw [htable, hn, ← hlen, ← List.length_map Entry.desc, readAll_append]
  · rw [hrest]
    exact (List.take_of_length_le (by rw [hpayload]; exact hpb.ge)).symm
  · rw [hfile, List.length_append, NetHeader.length_bytes]
    omega
  · intro h
    have hzero := congrArg BitVec.toNat h
    rw [hn, BitVec.toNat_ofNat] at hzero
    omega
  · rw [BitVec.le_def, hn]
    exact hcount.2
  · rw [htable, List.length_append, hdescs]
    exact Nat.le_add_right _ _
  · rw [hrest, hpayload]
    exact hpb.le
  · exact checkDesc_layout hts (by rw [BitVec.toNat_ofNat]; exact hpb.trans (Nat.zero_add _).symm)
      rfl

/-- `Tensor` finds the bytes of each tensor of a written file. -/
theorem exists_load (ts : List TensorData) (header : NetHeader) (path : String)
    (hcount : 1 ≤ ts.length ∧ ts.length ≤ 64) (hts : ∀ t ∈ ts, t.Valid)
    (hnames : (ts.map TensorData.name).Nodup) (hfit : totalSpace ts < 2 ^ 64) :
    ∃ f, NetFile.load path (some ((new.addAll ts).write header)) = .ok f ∧
      f.header = (new.addAll ts).sealed header ∧
      ∀ t ∈ ts, ∃ p : BitVec 64, f.tensor t.name t.dtype t.shape = .ok p ∧
        p.toNat + t.data.length ≤ f.payload.length ∧
        (f.payload.drop p.toNat).take t.data.length = t.data := by
  have haccepted := accepted_write ts header path hcount hts hfit
  refine ⟨_, load_some_eq_ok.mpr haccepted, rfl, fun t ht => ?_⟩
  obtain ⟨p, hp, -, hend, hbytes⟩ := tensor_layout (o := 0#64) hts hnames
    (by rw [BitVec.toNat_ofNat]; omega) ht
  rw [BitVec.toNat_ofNat, Nat.zero_mod] at hend hbytes
  rw [Nat.sub_zero] at hbytes
  exact ⟨p, hp, by rw [length_payload hts hfit]; omega, hbytes⟩

/-- A written file is read back: `Tensor` finds the bytes of each tensor, and the checksum that was
taken piece by piece is the one of the whole payload. -/
theorem load_write (ts : List TensorData) (header : NetHeader) (path : String)
    (hcount : 1 ≤ ts.length ∧ ts.length ≤ 64) (hts : ∀ t ∈ ts, t.Valid)
    (hnames : (ts.map TensorData.name).Nodup) (hfit : totalSpace ts < 2 ^ 64) :
    ∃ f, NetFile.load path (some ((new.addAll ts).write header)) = .ok f ∧
      f.header = (new.addAll ts).sealed header ∧
      payloadCrc (new.addAll ts).entries = crc32c f.payload 0#32 ∧
      ∀ t ∈ ts, ∃ p : BitVec 64, f.tensor t.name t.dtype t.shape = .ok p ∧
        p.toNat + t.data.length ≤ f.payload.length ∧
        (f.payload.drop p.toNat).take t.data.length = t.data := by
  obtain ⟨f, hload, hheader, htensors⟩ := exists_load ts header path hcount hts hnames hfit
  have hcrc := (load_some_eq_ok.mp hload).payloadCrc
  rw [hheader] at hcrc
  exact ⟨f, hload, hheader, hcrc.symm, htensors⟩

/-- Two tensors, the second one without elements. -/
def twoTensors : List TensorData :=
  [⟨[0x61#8], .i8, [3#64], [1#8, 2#8, 3#8]⟩, ⟨[0x62#8], .i16, [0#64, 5#64], []⟩]

theorem load_write_twoTensors :
    ∃ f, NetFile.load "net" (some ((new.addAll twoTensors).write zeroHeader)) = .ok f ∧
      f.header = (new.addAll twoTensors).sealed zeroHeader ∧
      payloadCrc (new.addAll twoTensors).entries = crc32c f.payload 0#32 ∧
      ∀ t ∈ twoTensors, ∃ p : BitVec 64, f.tensor t.name t.dtype t.shape = .ok p ∧
        p.toNat + t.data.length ≤ f.payload.length ∧
        (f.payload.drop p.toNat).take t.data.length = t.data := by
  refine load_write twoTensors zeroHeader "net" (by decide) (fun t ht => ?_) (by decide) (by decide)
  simp only [twoTensors, List.mem_cons, List.not_mem_nil, or_false] at ht
  obtain rfl | rfl := ht
  · exact ⟨by decide, by decide, by decide, by decide⟩
  · exact ⟨by decide, by decide, by decide, by decide⟩

/-- A file without tensors is not accepted. -/
theorem load_write_nil :
    (NetFile.load "net" (some ((new.addAll []).write zeroHeader))).toOption.isNone = true := by
  have hcount : ((new.addAll []).sealed zeroHeader).nTensors = 0#32 := rfl
  have hfile : NetHeader.ofBytes ((new.addAll []).write zeroHeader) =
      (new.addAll []).sealed zeroHeader := by
    rw [write, List.append_assoc, NetHeader.ofBytes_bytes]
  cases hload : NetFile.load "net" (some ((new.addAll []).write zeroHeader)) with
  | error e => rfl
  | ok f =>
    have haccepted := load_some_eq_ok.mp hload
    have hne := haccepted.count.1
    rw [haccepted.header, hfile, hcount] at hne
    exact absurd rfl hne

end NetWriter

end Nnue

end Shogi
