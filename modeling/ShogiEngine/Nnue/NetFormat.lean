import ShogiEngine.Library.CrcRegister

/-!
# The network file

The weight files of `nnue/net_format.cc`: a header, a table of tensor descriptors and the payload,
with checksums over the header and the payload. Files are lists of bytes; a C string is the list of
its characters without the terminating zero.

## Main definitions

- `crc32c`: the checksum, as it is computed with and without the machine's own instruction
- `NetHeader`, `TensorDesc`: the records of the file
- `NetFile.load`, `NetFile.tensor`: reading a file
- `NetWriter.addTensor`, `NetWriter.write`: writing one

## Main results

- `crc32c_eq_table`: both ways of computing the checksum agree
- `crc32c_append`: the checksum of consecutive pieces
-/

namespace Shogi

namespace Nnue

open LittleEndian CrcRegister

abbrev Byte := BitVec 8

/-! ## The checksum -/

/-- The polynomial of `InitCrcTable`. -/
def crcPoly : BitVec 32 := 0x82F63B78#32

/-- `g_crc_table[i]`. -/
def crcTable (i : BitVec 32) : BitVec 32 := steps crcPoly 8 i

/-- One pass of the loop without SSE 4.2. -/
def crcTableByte (crc : BitVec 32) (b : Byte) : BitVec 32 :=
  crcTable ((crc ^^^ b.setWidth 32) &&& 0xFF#32) ^^^ (crc >>> 8)

/-- `Crc32c` without SSE 4.2. -/
def crc32cByTable (data : List Byte) (crc : BitVec 32) : BitVec 32 :=
  ~~~data.foldl crcTableByte (~~~crc)

/-- `_mm_crc32_u8`. -/
def mmCrc32U8 (crc : BitVec 32) (b : Byte) : BitVec 32 := steps crcPoly 8 (crc ^^^ b.setWidth 32)

/-- `_mm_crc32_u64`: the 64 bits are divided at once. -/
def mmCrc32U64 (crc v : BitVec 64) : BitVec 64 := steps (crcPoly.setWidth 64) 64 (crc ^^^ v)

/-- The loops of `Crc32c`: words of eight bytes, then single bytes. -/
def crcBlocks : List Byte → BitVec 32 → BitVec 32
  | b0 :: b1 :: b2 :: b3 :: b4 :: b5 :: b6 :: b7 :: rest, crc =>
    let v := leWord 64 [b0, b1, b2, b3, b4, b5, b6, b7]
    crcBlocks rest ((mmCrc32U64 (crc.setWidth 64) v).setWidth 32)
  | data, crc => data.foldl mmCrc32U8 crc

/-- `Crc32c`. -/
def crc32c (data : List Byte) (crc : BitVec 32) : BitVec 32 := ~~~crcBlocks data (~~~crc)

theorem crcTableByte_eq : crcTableByte = byteStep crcPoly := by
  funext crc b
  rw [byteStep_eq_table]
  rfl

theorem mmCrc32U64_eq {bs : List Byte} (h : bs.length = 8) (crc : BitVec 32) :
    (mmCrc32U64 (crc.setWidth 64) (leWord 64 bs)).setWidth 32 =
      bs.foldl (byteStep crcPoly) crc := by
  have hword := @steps_leWord 32 64 crcPoly (by decide) (by decide) bs (by omega) crc
  rw [h] at hword
  rw [mmCrc32U64, hword, BitVec.setWidth_setWidth_of_le _ (by decide), BitVec.setWidth_eq]

theorem crcBlocks_eq (data : List Byte) (crc : BitVec 32) :
    crcBlocks data crc = data.foldl (byteStep crcPoly) crc := by
  induction data, crc using crcBlocks.induct with
  | case1 b0 b1 b2 b3 b4 b5 b6 b7 rest crc v ih =>
    rw [crcBlocks, ih, mmCrc32U64_eq rfl, ← List.foldl_append]
    rfl
  | case2 data crc h =>
    rw [crcBlocks]
    · rfl
    · exact h

/-- The instruction and the table give the same checksum. -/
theorem crc32c_eq_table (data : List Byte) (crc : BitVec 32) :
    crc32c data crc = crc32cByTable data crc := by
  rw [crc32c, crcBlocks_eq, crc32cByTable, crcTableByte_eq]

/-- The checksum may be taken piece by piece. -/
theorem crc32c_append (a b : List Byte) (crc : BitVec 32) :
    crc32c (a ++ b) crc = crc32c b (crc32c a crc) := by
  simp only [crc32c, crcBlocks_eq, List.foldl_append, BitVec.not_not]

theorem crc32c_nil (crc : BitVec 32) : crc32c [] crc = crc := by
  rw [crc32c, crcBlocks_eq, List.foldl_nil, BitVec.not_not]

/-! ## Records -/

/-- `DType`. -/
inductive DType
  | i8
  | i16
  | i32
  | f32
  deriving DecidableEq, Repr

/-- The value of the enumerator. -/
def DType.code : DType → BitVec 32
  | i8 => 1#32
  | i16 => 2#32
  | i32 => 3#32
  | f32 => 4#32

/-- `DTypeSize`, of any value that a file holds. -/
def dtypeSize (t : BitVec 32) : BitVec 64 :=
  if t = 1#32 then 1#64
  else if t = 2#32 then 2#64
  else if t = 3#32 then 4#64
  else if t = 4#32 then 4#64
  else 0#64

/-- `NetHeader`. -/
structure NetHeader where
  magic : Vector Byte 8
  version : BitVec 32
  kind : BitVec 32
  featureSetId : BitVec 32
  bucketTableId : BitVec 32
  l1 : Vector (BitVec 32) 4
  l2 : BitVec 32
  l3 : BitVec 32
  qa : BitVec 32
  qb : BitVec 32
  qPst : BitVec 32
  nTensors : BitVec 32
  payloadBytes : BitVec 64
  payloadCrc32c : BitVec 32
  headerCrc32c : BitVec 32
  reserved : Vector Byte 176
  deriving DecidableEq

/-- `TensorDesc`. -/
structure TensorDesc where
  name : Vector Byte 16
  dtype : BitVec 32
  rank : BitVec 32
  shape : Vector (BitVec 64) 3
  offset : BitVec 64
  reserved : Vector Byte 8
  deriving DecidableEq

/-- `kNetMagic`. -/
def kNetMagic : Vector Byte 8 := #v[0x4A#8, 0x48#8, 0x42#8, 0x52#8, 0x35#8, 0x4E#8, 0x4E#8, 0#8]

/-- `kNetVersion`. -/
def kNetVersion : BitVec 32 := 1#32

namespace NetHeader

/-- The header in memory. -/
def bytes (h : NetHeader) : List Byte :=
  h.magic.toList ++ (leBytes 4 h.version ++ (leBytes 4 h.kind ++ (leBytes 4 h.featureSetId ++
    (leBytes 4 h.bucketTableId ++ (h.l1.toList.flatMap (leBytes 4) ++ (leBytes 4 h.l2 ++
    (leBytes 4 h.l3 ++ (leBytes 4 h.qa ++ (leBytes 4 h.qb ++ (leBytes 4 h.qPst ++
    (leBytes 4 h.nTensors ++ (leBytes 8 h.payloadBytes ++ (leBytes 4 h.payloadCrc32c ++
    (leBytes 4 h.headerCrc32c ++ h.reserved.toList))))))))))))))

/-- The header that lies at the front of a stream. -/
def ofBytes (s : List Byte) : NetHeader :=
  let (magic, s) := readBytes 8 s
  let (version, s) := readWord 32 4 s
  let (kind, s) := readWord 32 4 s
  let (featureSetId, s) := readWord 32 4 s
  let (bucketTableId, s) := readWord 32 4 s
  let (l1, s) := readWords 32 4 4 s
  let (l2, s) := readWord 32 4 s
  let (l3, s) := readWord 32 4 s
  let (qa, s) := readWord 32 4 s
  let (qb, s) := readWord 32 4 s
  let (qPst, s) := readWord 32 4 s
  let (nTensors, s) := readWord 32 4 s
  let (payloadBytes, s) := readWord 64 8 s
  let (payloadCrc32c, s) := readWord 32 4 s
  let (headerCrc32c, s) := readWord 32 4 s
  let (reserved, _) := readBytes 176 s
  ⟨magic, version, kind, featureSetId, bucketTableId, l1, l2, l3, qa, qb, qPst,
    nTensors, payloadBytes, payloadCrc32c, headerCrc32c, reserved⟩

@[simp] theorem length_bytes (h : NetHeader) : h.bytes.length = 256 := by
  simp [bytes]

theorem ofBytes_bytes (h : NetHeader) (rest : List Byte) : ofBytes (h.bytes ++ rest) = h := by
  simp only [ofBytes, bytes, List.append_assoc, readBytes_append,
    readWords_append (show 32 ≤ 8 * 4 by decide), readWord_append (show 32 ≤ 8 * 4 by decide),
    readWord_append (show 64 ≤ 8 * 8 by decide)]

end NetHeader

namespace TensorDesc

/-- The descriptor in memory. -/
def bytes (d : TensorDesc) : List Byte :=
  d.name.toList ++ (leBytes 4 d.dtype ++ (leBytes 4 d.rank ++
    (d.shape.toList.flatMap (leBytes 8) ++ (leBytes 8 d.offset ++ d.reserved.toList))))

/-- The descriptor that lies at the front of a stream. -/
def ofBytes (s : List Byte) : TensorDesc :=
  let (name, s) := readBytes 16 s
  let (dtype, s) := readWord 32 4 s
  let (rank, s) := readWord 32 4 s
  let (shape, s) := readWords 64 8 3 s
  let (offset, s) := readWord 64 8 s
  let (reserved, _) := readBytes 8 s
  ⟨name, dtype, rank, shape, offset, reserved⟩

@[simp] theorem length_bytes (d : TensorDesc) : d.bytes.length = 64 := by
  simp [bytes]

theorem ofBytes_bytes (d : TensorDesc) (rest : List Byte) : ofBytes (d.bytes ++ rest) = d := by
  simp only [ofBytes, bytes, List.append_assoc, readBytes_append,
    readWords_append (show 64 ≤ 8 * 8 by decide), readWord_append (show 32 ≤ 8 * 4 by decide),
    readWord_append (show 64 ≤ 8 * 8 by decide)]

/-- `n` descriptors at the front of a stream. -/
def readAll : Nat → List Byte → List TensorDesc
  | 0, _ => []
  | n + 1, s => ofBytes s :: readAll n (s.drop 64)

/-- The number of elements times their size, as it is computed in 64 bits. -/
def byteSize (d : TensorDesc) : BitVec 64 :=
  (d.shape.toList.take d.rank.toNat).foldl (· * ·) (dtypeSize d.dtype)

end TensorDesc

/-! ## Reading -/

/-- `NetFile`. -/
structure NetFile where
  header : NetHeader
  descs : List TensorDesc
  payload : List Byte

/-- Whether `strncmp` finds two C strings equal in their first `n` characters. -/
def strncmpEq : Nat → List Byte → List Byte → Bool
  | 0, _, _ => true
  | n + 1, a, b =>
    a.headD 0#8 = b.headD 0#8 && (a.headD 0#8 = 0#8 || strncmpEq n a.tail b.tail)

/-- A C string in the text of an error. -/
def text (name : List Byte) : String := String.ofList (name.map fun b => Char.ofNat b.toNat)

namespace NetFile

/-- The checks that `Load` makes of a descriptor. -/
def checkDesc (path : String) (payloadBytes : BitVec 64) (d : TensorDesc) : Except String Unit :=
  if dtypeSize d.dtype = 0#64 ∨ d.rank = 0#32 ∨ 3#32 < d.rank then
    .error (path ++ ": bad tensor descriptor")
  else if d.offset % 64#64 ≠ 0#64 ∨ payloadBytes < d.offset + d.byteSize then
    .error (path ++ ": tensor out of bounds")
  else .ok ()

/-- `Load` once the file is open. -/
def loadBytes (path : String) (s : List Byte) : Except String NetFile :=
  let h := NetHeader.ofBytes s
  let table := s.drop 256
  let rest := table.drop (64 * h.nTensors.toNat)
  let payload := rest.take h.payloadBytes.toNat
  if s.length < 256 then .error (path ++ ": short header")
  else if h.magic ≠ kNetMagic then .error (path ++ ": bad magic")
  else if h.version ≠ kNetVersion then .error (path ++ ": unsupported version")
  else if crc32c { h with headerCrc32c := 0#32 }.bytes 0#32 ≠ h.headerCrc32c then
    .error (path ++ ": header CRC mismatch")
  else if h.nTensors = 0#32 ∨ 64#32 < h.nTensors then .error (path ++ ": bad tensor count")
  else if table.length < 64 * h.nTensors.toNat then .error (path ++ ": short tensor table")
  else if rest.length < h.payloadBytes.toNat then .error (path ++ ": short payload")
  else if crc32c payload 0#32 ≠ h.payloadCrc32c then .error (path ++ ": payload CRC mismatch")
  else
    let descs := TensorDesc.readAll h.nTensors.toNat table
    descs.forM (checkDesc path h.payloadBytes) >>= fun _ => .ok ⟨h, descs, payload⟩

/-- `Load`; `none` for a file that cannot be opened. -/
def load (path : String) (contents : Option (List Byte)) : Except String NetFile :=
  match contents with
  | none => .error ("cannot open " ++ path)
  | some s => loadBytes path s

/-- The loop of `Tensor`; the result is the place in the payload. -/
def tensorAmong (name : List Byte) (dtype : DType) (shape : List (BitVec 64)) :
    List TensorDesc → Except String (BitVec 64)
  | [] => .error ("tensor " ++ text name ++ ": missing")
  | d :: rest =>
    if !strncmpEq 16 d.name.toList name then tensorAmong name dtype shape rest
    else if d.dtype ≠ dtype.code then .error ("tensor " ++ text name ++ ": dtype mismatch")
    else if d.rank.toNat ≠ shape.length then .error ("tensor " ++ text name ++ ": rank mismatch")
    else if (shape.zip d.shape.toList).any fun x => x.1 ≠ 0#64 && x.1 ≠ x.2 then
      .error ("tensor " ++ text name ++ ": shape mismatch")
    else .ok d.offset

/-- `Tensor`. -/
def tensor (f : NetFile) (name : List Byte) (dtype : DType) (shape : List (BitVec 64)) :
    Except String (BitVec 64) :=
  tensorAmong name dtype shape f.descs

end NetFile

/-! ## Writing -/

namespace NetWriter

/-- `Entry`. -/
structure Entry where
  desc : TensorDesc
  data : List Byte
  bytes : BitVec 64

end NetWriter

/-- `NetWriter`. -/
structure NetWriter where
  entries : List NetWriter.Entry
  payloadBytes : BitVec 64

namespace NetWriter

/-- A new writer. -/
def new : NetWriter := ⟨[], 0#64⟩

/-- `(n + 63) / 64 * 64`. -/
def padded (n : BitVec 64) : BitVec 64 := (n + 63#64) / 64#64 * 64#64

/-- The bytes of a tensor: those of the first three entries of its shape. -/
def byteSize (dtype : DType) (shape : List (BitVec 64)) : BitVec 64 :=
  (shape.take 3).foldl (· * ·) (dtypeSize dtype.code)

/-- `AddTensor`. -/
def addTensor (w : NetWriter) (name : List Byte) (dtype : DType) (shape : List (BitVec 64))
    (data : List Byte) : NetWriter :=
  let n := byteSize dtype shape
  let desc : TensorDesc := {
    name := .ofFn fun i => (name.take 15).getD i 0#8
    dtype := dtype.code
    rank := BitVec.ofNat 32 shape.length
    shape := .ofFn fun i => shape.getD i 0#64
    offset := w.payloadBytes
    reserved := .replicate 8 0#8 }
  ⟨w.entries ++ [⟨desc, data, n⟩], w.payloadBytes + padded n⟩

/-- The bytes that are written for an entry: its data and zeros up to a multiple of 64. -/
def Entry.written (e : Entry) : List Byte := e.data.take e.bytes.toNat

def Entry.padding (e : Entry) : List Byte := List.replicate (padded e.bytes - e.bytes).toNat 0#8

/-- The checksum of the payload, entry by entry. -/
def payloadCrc (entries : List Entry) : BitVec 32 :=
  entries.foldl (fun crc e =>
    let crc := crc32c e.written crc
    if e.padding.isEmpty then crc else crc32c e.padding crc) 0#32

/-- The header that `Write` completes. -/
def sealed (w : NetWriter) (header : NetHeader) : NetHeader :=
  let header := { header with
    magic := kNetMagic
    version := kNetVersion
    nTensors := BitVec.ofNat 32 w.entries.length
    payloadBytes := w.payloadBytes
    payloadCrc32c := payloadCrc w.entries
    headerCrc32c := 0#32 }
  { header with headerCrc32c := crc32c header.bytes 0#32 }

/-- The file that `Write` leaves. -/
def write (w : NetWriter) (header : NetHeader) : List Byte :=
  (w.sealed header).bytes ++ w.entries.flatMap (fun e => e.desc.bytes) ++
    w.entries.flatMap fun e => e.written ++ e.padding

end NetWriter

end Nnue

end Shogi
