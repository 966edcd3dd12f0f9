import ShogiEngine.Library.LittleEndian
import ShogiEngine.Library.RecordStream

/-!
# Training records

The record files of `nnue/record.cc`: a header, and records of varying length whose head says how many
entries of the visit distribution follow.

## Main definitions

- `RecordWriter.write`, `RecordReader.openFile`, `RecordReader.next`: the source's functions
- `Record.normalized`: a record as it is written

## Main results

- `encode_next`, `next_take`: one record, whole or cut
- `read_written`: what was written is read back, and of a file that is cut the whole records
-/

namespace Shogi

namespace Nnue

open LittleEndian

/-- `kRecordMagic`. -/
def kRecordMagic : Vector (BitVec 8) 8 := #v[0x4A#8, 0x48#8, 0x42#8, 0x52#8, 0x35#8, 0x52#8, 0x43#8, 0x00#8]

/-- `kRecordVersion`. -/
def kRecordVersion : BitVec 32 := 1#32

/-- `FileHeader`. -/
structure RecordFileHeader where
  magic : Vector (BitVec 8) 8
  version : BitVec 32
  reserved : BitVec 32

/-- `RecordHead`; the score and the result are signed. -/
structure RecordHead where
  sfen : Vector (BitVec 8) 32
  score : BitVec 16
  move : BitVec 16
  gamePly : BitVec 16
  result : BitVec 8
  flags : BitVec 8
  nDist : BitVec 16
  reserved : BitVec 16
  deriving DecidableEq

/-- `DistEntry`. -/
structure DistEntry where
  move : BitVec 16
  visits : BitVec 16
  deriving DecidableEq

/-- `kHasDist`. -/
def kHasDist : BitVec 8 := 1#8

/-- `Record`. -/
structure Record where
  head : RecordHead
  dist : List DistEntry
  deriving DecidableEq

/-! ## Bytes -/

/-- The 16 bytes of a file header. -/
def RecordFileHeader.bytes (h : RecordFileHeader) : List (BitVec 8) :=
  h.magic.toList ++ (leBytes 4 h.version ++ leBytes 4 h.reserved)

/-- A file header from its bytes. -/
def RecordFileHeader.ofBytes (s : List (BitVec 8)) : RecordFileHeader :=
  let magic := readBytes 8 s
  let version := readWord 32 4 magic.2
  let reserved := readWord 32 4 version.2
  ⟨magic.1, version.1, reserved.1⟩

/-- The 44 bytes of a head. -/
def RecordHead.bytes (h : RecordHead) : List (BitVec 8) :=
  h.sfen.toList ++ (leBytes 2 h.score ++ (leBytes 2 h.move ++ (leBytes 2 h.gamePly ++
    (leBytes 1 h.result ++ (leBytes 1 h.flags ++ (leBytes 2 h.nDist ++ leBytes 2 h.reserved))))))

/-- A head from its bytes. -/
def RecordHead.ofBytes (s : List (BitVec 8)) : RecordHead :=
  let sfen := readBytes 32 s
  let score := readWord 16 2 sfen.2
  let move := readWord 16 2 score.2
  let gamePly := readWord 16 2 move.2
  let result := readWord 8 1 gamePly.2
  let flags := readWord 8 1 result.2
  let nDist := readWord 16 2 flags.2
  let reserved := readWord 16 2 nDist.2
  ⟨sfen.1, score.1, move.1, gamePly.1, result.1, flags.1, nDist.1, reserved.1⟩

/-- The 4 bytes of an entry. -/
def DistEntry.bytes (e : DistEntry) : List (BitVec 8) := leBytes 2 e.move ++ leBytes 2 e.visits

/-- An entry from its bytes. -/
def DistEntry.ofBytes (s : List (BitVec 8)) : DistEntry :=
  let move := readWord 16 2 s
  let visits := readWord 16 2 move.2
  ⟨move.1, visits.1⟩

/-- The entries of an array of `n` entries. -/
def readDist : Nat → List (BitVec 8) → List DistEntry
  | 0, _ => []
  | n + 1, s => DistEntry.ofBytes s :: readDist n (s.drop 4)

/-- `fread` of `count` items: nothing if there are fewer, and then the file is at its end. -/
def fread (size count : Nat) (s : List (BitVec 8)) : Option (List (BitVec 8)) × List (BitVec 8) :=
  if s.length < size * count then (none, []) else (some (s.take (size * count)), s.drop (size * count))

/-! ## The writer -/

/-- `RecordWriter`: the contents of the file that is open, and the number of records. -/
structure RecordWriter where
  f : Option (List (BitVec 8))
  written : Nat

/-- `RecordWriter` after `Open`. -/
def RecordWriter.opened : RecordWriter := ⟨some (RecordFileHeader.bytes ⟨kRecordMagic, kRecordVersion, 0#32⟩), 0⟩

/-- The head that `Write` writes. -/
def Record.writtenHead (r : Record) : RecordHead :=
  let head := { r.head with nDist := BitVec.ofNat 16 r.dist.length }
  if r.dist.isEmpty then head else { head with flags := head.flags ||| kHasDist }

/-- `Write`. -/
def RecordWriter.write (w : RecordWriter) (r : Record) : Bool × RecordWriter :=
  w.f.elim (false, w) fun file =>
    (true, ⟨some (file ++ (r.writtenHead.bytes ++ r.dist.flatMap DistEntry.bytes)), w.written + 1⟩)

/-! ## The reader -/

/-- `RecordReader`: what is left of the file that is open, and the number of records. -/
structure RecordReader where
  f : Option (List (BitVec 8))
  read : Nat

/-- `RecordReader::Open`, with the message where it fails; there are no contents where the file cannot
be opened. -/
def RecordReader.openFile (path : String) (contents : Option (List (BitVec 8))) :
    Except String RecordReader :=
  contents.elim (.error ("cannot open " ++ path)) fun bytes =>
    let header := fread 16 1 bytes
    if header.1.all fun h => (RecordFileHeader.ofBytes h).magic ≠ kRecordMagic then
      .error (path ++ ": not a JHBR5 record file")
    else if header.1.all fun h => (RecordFileHeader.ofBytes h).version ≠ kRecordVersion then
      .error (path ++ ": unsupported record version")
    else .ok ⟨some header.2, 0⟩

/-- The two reads of `Next`. -/
def nextRecord (s : List (BitVec 8)) : Option Record × List (BitVec 8) :=
  let head := fread 44 1 s
  head.1.elim (none, head.2) fun bytes =>
    let h := RecordHead.ofBytes bytes
    if h.nDist = 0#16 then (some ⟨h, []⟩, head.2)
    else
      let dist := fread 4 h.nDist.toNat head.2
      (dist.1.map fun bytes => ⟨h, readDist h.nDist.toNat bytes⟩, dist.2)

/-- `Next`: the record that is returned, if any. -/
def RecordReader.next (rd : RecordReader) : Option Record × RecordReader :=
  rd.f.elim (none, rd) fun s =>
    let r := nextRecord s
    (r.1, ⟨some r.2, rd.read + if r.1.isSome then 1 else 0⟩)

/-- What call `i` of `Next` returns. -/
def RecordReader.result : RecordReader → Nat → Option Record
  | rd, 0 => rd.next.1
  | rd, i + 1 => rd.next.2.result i

/-- The records in the bytes behind a header, until a call of `Next` fails. -/
def recordsWithin : Nat → List (BitVec 8) → List Record
  | 0, _ => []
  | n + 1, s => (nextRecord s).1.elim [] fun r => r :: recordsWithin n (nextRecord s).2

/-- The records that a reader has still to return. -/
def RecordReader.remaining (rd : RecordReader) : List Record :=
  rd.f.elim [] fun s => recordsWithin s.length s

/-! ## Round trips -/

/-- A record as it is written. -/
def Record.normalized (r : Record) : Record := ⟨r.writtenHead, r.dist⟩

/-- The bytes of a record. -/
def Record.bytes (r : Record) : List (BitVec 8) := r.head.bytes ++ r.dist.flatMap DistEntry.bytes

/-- The head says how many entries follow. -/
def Record.Counted (r : Record) : Prop := r.head.nDist.toNat = r.dist.length

section RoundTrip

variable {r : Record} {records : List Record} {rest s : List (BitVec 8)} {size count k n : Nat}

theorem length_headBytes (h : RecordHead) : h.bytes.length = 44 := by
  simp only [RecordHead.bytes, List.length_append, length_leBytes, Vector.length_toList]

theorem length_distBytes (e : DistEntry) : e.bytes.length = 4 := by
  simp only [DistEntry.bytes, List.length_append, length_leBytes]

theorem fread_append {a : List (BitVec 8)} (ha : a.length = size * count) :
    fread size count (a ++ rest) = (some a, rest) := by
  have hlong : ¬ (a ++ rest).length < size * count := by
    rw [List.length_append]
    omega
  rw [fread, if_neg hlong, List.take_left' ha, List.drop_left' ha]

theorem fread_short (hs : s.length < size * count) : fread size count s = (none, []) := if_pos hs

theorem ofBytes_headBytes (h : RecordHead) : RecordHead.ofBytes h.bytes = h := by
  have hword : ∀ (x : BitVec 16) rest, readWord 16 2 (leBytes 2 x ++ rest) = (x, rest) :=
    readWord_append (by decide)
  have hbyte : ∀ (x : BitVec 8) rest, readWord 8 1 (leBytes 1 x ++ rest) = (x, rest) :=
    readWord_append (by decide)
  have hlast : readWord 16 2 (leBytes 2 h.reserved) = (h.reserved, []) := by
    rw [← hword h.reserved [], List.append_nil]
  simp only [RecordHead.ofBytes, RecordHead.bytes, readBytes_append, hword, hbyte, hlast]

theorem ofBytes_distBytes (e : DistEntry) : DistEntry.ofBytes (e.bytes ++ rest) = e := by
  have hword : ∀ (x : BitVec 16) rest, readWord 16 2 (leBytes 2 x ++ rest) = (x, rest) :=
    readWord_append (by decide)
  simp only [DistEntry.ofBytes, DistEntry.bytes, List.append_assoc, hword]

theorem readDist_flatMap (dist : List DistEntry) :
    readDist dist.length (dist.flatMap DistEntry.bytes) = dist := by
  induction dist with
  | nil => rfl
  | cons e dist ih =>
    rw [List.flatMap_cons, List.length_cons, readDist, ofBytes_distBytes,
      List.drop_left' (length_distBytes e), ih]

theorem length_flatMap_distBytes (dist : List DistEntry) :
    (dist.flatMap DistEntry.bytes).length = 4 * dist.length := length_flatMap length_distBytes dist

/-- A whole record is read. -/
theorem encode_next (hr : r.Counted) : nextRecord (r.bytes ++ rest) = (some r, rest) := by
  rw [nextRecord, Record.bytes, List.append_assoc, fread_append (length_headBytes r.head)]
  dsimp only [Option.elim_some]
  rw [ofBytes_headBytes]
  by_cases hzero : r.head.nDist = 0#16
  · have hnil : r.dist = [] := by
      rw [Record.Counted, hzero] at hr
      exact List.eq_nil_of_length_eq_zero hr.symm
    obtain ⟨head, dist⟩ := r
    cases hnil
    exact if_pos hzero
  · have hlength : (r.dist.flatMap DistEntry.bytes).length = 4 * r.head.nDist.toNat := by
      rw [length_flatMap_distBytes, hr]
    rw [if_neg hzero, fread_append hlength]
    dsimp only [Option.map_some]
    rw [hr, readDist_flatMap]

/-- Of a record that is cut nothing is returned. -/
theorem next_take (hr : r.Counted) (hk : k < r.bytes.length) : nextRecord (r.bytes.take k) = (none, []) := by
  have hhead := length_headBytes r.head
  have hdist := length_flatMap_distBytes r.dist
  rw [Record.bytes, List.length_append, hhead, hdist] at hk
  by_cases hshort : k < 44
  · have hlength : (r.bytes.take k).length < 44 * 1 := by
      rw [List.length_take]
      omega
    rw [nextRecord, fread_short hlength]
    rfl
  · -- the head is whole, so that there are entries
    have hsplit : r.bytes.take k = r.head.bytes ++ (r.dist.flatMap DistEntry.bytes).take (k - 44) := by
      rw [Record.bytes, List.take_append, hhead, List.take_of_length_le (by omega)]
    have hzero : r.head.nDist ≠ 0#16 := by
      intro hzero
      rw [Record.Counted, hzero] at hr
      have hnone : r.dist.length = 0 := hr.symm
      omega
    have hlength : ((r.dist.flatMap DistEntry.bytes).take (k - 44)).length < 4 * r.head.nDist.toNat := by
      rw [List.length_take, hr]
      omega
    rw [hsplit, nextRecord, fread_append hhead]
    dsimp only [Option.elim_some]
    rw [ofBytes_headBytes, if_neg hzero, fread_short hlength]
    rfl

/-- The reader takes one record at each call. -/
theorem reads_nextRecord (h : ∀ r ∈ records, r.Counted) :
    RecordStream.Reads Record.bytes nextRecord records where
  whole r hr _ := encode_next (h r hr)
  cut r hr _ hk := next_take (h r hr) hk
  nil := rfl

theorem counted_normalized (hr : r.dist.length ≤ 65535) : r.normalized.Counted := by
  have hcount : r.writtenHead.nDist = BitVec.ofNat 16 r.dist.length := by
    rw [Record.writtenHead]
    split <;> rfl
  rw [Record.Counted, Record.normalized, hcount, BitVec.toNat_ofNat]
  exact Nat.mod_eq_of_lt (by omega)

/-- What the writer has written. -/
theorem foldl_write (file : List (BitVec 8)) (n : Nat) :
    records.foldl (fun (w : RecordWriter) r => (w.write r).2) ⟨some file, n⟩ =
      ⟨some (file ++ (records.map Record.normalized).flatMap Record.bytes), n + records.length⟩ := by
  induction records generalizing file n with
  | nil =>
    rw [List.foldl_nil, List.map_nil, List.flatMap_nil, List.append_nil]
    rfl
  | cons r records ih =>
    rw [List.foldl_cons, RecordWriter.write, Option.elim_some, ih, List.map_cons, List.flatMap_cons,
      List.append_assoc, List.length_cons, Nat.add_assoc, Nat.add_comm 1]
    rfl

/-- The calls of `Next` are those of the record stream. -/
theorem result_eq (s : List (BitVec 8)) (n i : Nat) :
    (RecordReader.mk (some s) n).result i = RecordStream.result nextRecord s i := by
  induction i generalizing s n with
  | zero => rfl
  | succ i ih => exact ih (nextRecord s).2 _

/-- The bytes of the header that `Open` writes. -/
def openedHeader : List (BitVec 8) := RecordFileHeader.bytes ⟨kRecordMagic, kRecordVersion, 0#32⟩

theorem length_openedHeader : openedHeader.length = 16 := rfl

theorem openFile_openedHeader (path : String) :
    RecordReader.openFile path (some (openedHeader ++ s)) = .ok ⟨some s, 0⟩ := by
  have hofBytes : RecordFileHeader.ofBytes openedHeader = ⟨kRecordMagic, kRecordVersion, 0#32⟩ := by
    have hword : ∀ (x : BitVec 32) rest, readWord 32 4 (leBytes 4 x ++ rest) = (x, rest) :=
      readWord_append (by decide)
    have hlast : readWord 32 4 (leBytes 4 (0#32 : BitVec 32)) = (0#32, []) := by
      rw [← hword 0#32 [], List.append_nil]
    simp only [RecordFileHeader.ofBytes, openedHeader, RecordFileHeader.bytes, readBytes_append, hword,
      hlast]
  have hmagic : ¬ ((some openedHeader).all fun h =>
      (RecordFileHeader.ofBytes h).magic ≠ kRecordMagic) = true := by
    rw [Option.all_some, hofBytes]
    decide
  have hversion : ¬ ((some openedHeader).all fun h =>
      (RecordFileHeader.ofBytes h).version ≠ kRecordVersion) = true := by
    rw [Option.all_some, hofBytes]
    decide
  rw [RecordReader.openFile, Option.elim_some, fread_append length_openedHeader]
  dsimp only
  rw [if_neg hmagic, if_neg hversion]

/-- What was written is read back, with the number of entries and the flag in the head as the writer
sets them, and then the file ends; of a file that is cut behind its header, the records before the cut
are read back, and nothing else. -/
theorem read_written (path : String) (records : List Record)
    (hsize : ∀ r ∈ records, r.dist.length ≤ 65535) :
    ∃ file, (records.foldl (fun (w : RecordWriter) r => (w.write r).2) RecordWriter.opened).f = some file ∧
      (∃ rd, RecordReader.openFile path (some file) = .ok rd ∧
        ∀ i, rd.result i = (records.map Record.normalized)[i]?) ∧
      ∀ k, 16 ≤ k → ∃ rd n, RecordReader.openFile path (some (file.take k)) = .ok rd ∧
        n ≤ records.length ∧ (∀ i, rd.result i = ((records.map Record.normalized).take n)[i]?) ∧
        16 + (((records.map Record.normalized).take n).flatMap Record.bytes).length ≤ k ∧
        (n < records.length →
          k < 16 + (((records.map Record.normalized).take (n + 1)).flatMap Record.bytes).length) := by
  have hcounted : ∀ r ∈ records.map Record.normalized, r.Counted := by
    intro r hr
    obtain ⟨r', hr', rfl⟩ := List.mem_map.mp hr
    exact counted_normalized (hsize r' hr')
  have hreads := reads_nextRecord hcounted
  refine ⟨openedHeader ++ (records.map Record.normalized).flatMap Record.bytes, ?_,
    ⟨_, openFile_openedHeader path, fun i => ?_⟩, fun k hk => ?_⟩
  · exact congrArg RecordWriter.f (foldl_write openedHeader 0)
  · rw [result_eq]
    exact RecordStream.result_flatMap hreads i
  · obtain ⟨n, hn, hfit, hnext, hresult⟩ := RecordStream.result_take hreads (k - 16)
    have hsplit : (openedHeader ++ (records.map Record.normalized).flatMap Record.bytes).take k =
        openedHeader ++ ((records.map Record.normalized).flatMap Record.bytes).take (k - 16) := by
      rw [List.take_append, length_openedHeader,
        List.take_of_length_le (length_openedHeader.trans_le hk)]
    rw [List.length_map] at hn hnext
    refine ⟨_, n, by rw [hsplit]; exact openFile_openedHeader path, hn, fun i => ?_, by omega,
      fun hlt => ?_⟩
    · rw [result_eq]
      exact hresult i
    · have := hnext hlt
      omega

/-- A record takes its head from the file at least. -/
theorem length_nextRecord {t : List (BitVec 8)} (h : nextRecord s = (some r, t)) : t.length + 44 ≤ s.length := by
  rw [nextRecord] at h
  by_cases hshort : s.length < 44 * 1
  · rw [fread_short hshort] at h
    cases h
  · have hfread : fread 44 1 s = (some (s.take 44), s.drop 44) := if_neg hshort
    rw [hfread] at h
    dsimp only [Option.elim_some] at h
    have hdrop := List.length_drop (i := 44) (l := s)
    split at h
    · obtain rfl := (Prod.mk.inj h).2
      omega
    · rw [fread] at h
      split at h
      · cases h
      · obtain rfl := (Prod.mk.inj h).2
        rw [List.length_drop]
        omega

/-- With enough rounds all records are found. -/
theorem recordsWithin_eq {m n : Nat} (hm : s.length ≤ m) (hn : s.length ≤ n) :
    recordsWithin m s = recordsWithin n s := by
  have hnil : ∀ n, recordsWithin n [] = [] := fun n => by cases n <;> rfl
  induction m generalizing s n with
  | zero => rw [List.eq_nil_of_length_eq_zero (Nat.le_zero.mp hm), hnil, hnil]
  | succ m ih =>
    cases n with
    | zero => rw [List.eq_nil_of_length_eq_zero (Nat.le_zero.mp hn), hnil, hnil]
    | succ n =>
      rw [recordsWithin, recordsWithin]
      cases hnext : (nextRecord s).1 with
      | none => rfl
      | some r =>
        have hlength : (nextRecord s).2.length + 44 ≤ s.length := length_nextRecord (Prod.ext hnext rfl)
        exact congrArg (r :: ·) (ih (by omega) (by omega))

/-- What a call of `Next` takes of the records that remain. -/
theorem RecordReader.remaining_next (rd : RecordReader) :
    rd.remaining = rd.next.1.elim [] fun r => r :: rd.next.2.remaining := by
  obtain ⟨f, read⟩ := rd
  cases f with
  | none => rfl
  | some s =>
    have hmore : recordsWithin s.length s = recordsWithin (s.length + 1) s := recordsWithin_eq le_rfl (Nat.le_succ _)
    rw [RecordReader.remaining, Option.elim_some, hmore, recordsWithin]
    change _ = (nextRecord s).1.elim [] fun r => r :: recordsWithin (nextRecord s).2.length (nextRecord s).2
    cases hnext : (nextRecord s).1 with
    | none => rfl
    | some r =>
      have hlength : (nextRecord s).2.length + 44 ≤ s.length := length_nextRecord (Prod.ext hnext rfl)
      exact congrArg (r :: ·) (recordsWithin_eq (by omega) le_rfl)

/-- The records that have been written remain to be read. -/
theorem RecordReader.remaining_flatMap (h : ∀ r ∈ records, r.Counted) (n : Nat) :
    (RecordReader.mk (some (records.flatMap Record.bytes)) n).remaining = records := by
  induction records generalizing n with
  | nil => rfl
  | cons r records ih =>
    have hnext : (RecordReader.mk (some ((r :: records).flatMap Record.bytes)) n).next =
        (some r, ⟨some (records.flatMap Record.bytes), n + 1⟩) := by
      rw [RecordReader.next, Option.elim_some, List.flatMap_cons, encode_next (h r List.mem_cons_self)]
      rfl
    rw [RecordReader.remaining_next, hnext]
    exact congrArg (r :: ·) (ih (fun x hx => h x (List.mem_cons_of_mem r hx)) (n + 1))

/-- Two records, the first with an entry. -/
def sampleRecords : List Record :=
  [⟨⟨.replicate 32 0#8, 35#16, 0x1234#16, 1#16, 1#8, 4#8, 0#16, 0#16⟩, [⟨0x1234#16, 65535#16⟩]⟩,
    ⟨⟨.replicate 32 0#8, 0#16, 0#16, 2#16, 255#8, 4#8, 7#16, 0#16⟩, []⟩]

theorem read_written_sample :
    ∃ file, (sampleRecords.foldl (fun (w : RecordWriter) r => (w.write r).2) RecordWriter.opened).f =
        some file ∧
      (∃ rd, RecordReader.openFile "" (some file) = .ok rd ∧
        ∀ i, rd.result i = (sampleRecords.map Record.normalized)[i]?) ∧
      ∀ k, 16 ≤ k → ∃ rd n, RecordReader.openFile "" (some (file.take k)) = .ok rd ∧
        n ≤ sampleRecords.length ∧
        (∀ i, rd.result i = ((sampleRecords.map Record.normalized).take n)[i]?) ∧
        16 + (((sampleRecords.map Record.normalized).take n).flatMap Record.bytes).length ≤ k ∧
        (n < sampleRecords.length →
          k < 16 + (((sampleRecords.map Record.normalized).take (n + 1)).flatMap Record.bytes).length) :=
  read_written "" sampleRecords (by decide)

/-- The flag and the numbers of entries are set. -/
example : (sampleRecords.map fun r => (r.normalized.head.flags, r.normalized.head.nDist)) =
    [(5#8, 1#16), (4#8, 0#16)] := by
  decide

end RoundTrip

end Nnue

end Shogi
