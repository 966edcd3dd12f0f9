import ShogiEngine.Library.RoundRobin
import ShogiEngine.Nnue.Record

/-!
# Training batches

`BatchReader` reads up to 16 shards of records in turn into a shuffle buffer, from which it takes the
records of each batch. `ReadOne` tries a bounded number of slots for one record, and the first time that it
finds none the reader holds the shards to be exhausted.

## Main definitions

- `Rng`: the random numbers and shuffles of the library
- `openNext`, `tryRead`, `readOne`, `fill`, `emit`, `next`: the source's functions, of which those with loops
  take fuel
- `BatchReader.ring`: the slots and the shards to come, as a ring of streams
- `Prompt`: a record comes before `ReadOne` gives up
- `Calls`: successive calls whose states before each loop of `ReadOne` meet a condition
- `Delivers`: what the calls should have returned

## Main results

- `tryRead_scan`: the loop of `ReadOne` is a scan of the ring
- `delivered_of_calls`: if `ReadOne` never gives up too early, all is delivered
- `gives_up`, `dropped`: where it does, records are dropped
- `delivered_of_full`: if no shard is empty and no record is passed over, all is delivered
-/

namespace Shogi.Pyext

open Nnue RoundRobin

/-! ## The state -/

/-- `std::mt19937_64` and `std::shuffle` with it. -/
structure Rng where
  State : Type
  draw : State → Nat × State
  shuffle : List String → State → List String × State
  perm : ∀ l g, (shuffle l g).1.Perm l

/-- The arguments of the constructor that reading depends on; `shuffleBuffer` is not below the batch size. -/
structure Settings where
  batchSize : BitVec 32
  shuffleBuffer : BitVec 32
  requireDist : Bool
  loop : Bool
  moveFallback : Bool

/-- `paths_`, `file_index_`, `epoch_` and `rng_`. -/
structure Shards (R : Rng) where
  paths : List String
  fileIndex : Nat
  epoch : Nat
  rng : R.State

/-- An entry of `readers_` and of `live_`. -/
structure Slot where
  reader : RecordReader
  live : Bool

structure BatchReader (R : Rng) where
  settings : Settings
  shards : Shards R
  slots : List Slot
  nextSlot : Nat
  recordsRead : Nat
  buffer : List Record
  exhausted : Bool

/-- `kOpenReaders`. -/
def kOpenReaders : Nat := 16

section Functions

variable {R : Rng} (files : String → Option (List (BitVec 8)))

/-- `std::shuffle(paths_.begin(), paths_.end(), rng_)`. -/
def Shards.shuffled (sh : Shards R) : Shards R :=
  { sh with paths := (R.shuffle sh.paths sh.rng).1, rng := (R.shuffle sh.paths sh.rng).2 }

/-- The next epoch. -/
def Shards.nextEpoch (sh : Shards R) : Shards R := { sh.shuffled with fileIndex := 0, epoch := sh.epoch + 1 }

/-- `++file_index_`. -/
def Shards.advanced (sh : Shards R) : Shards R := { sh with fileIndex := sh.fileIndex + 1 }

/-- `OpenNextInto` for the reader of the slot: whether a shard was opened, the reader, and the shards. -/
def openNext (loop : Bool) : Nat → RecordReader → Shards R → Option (Bool × RecordReader × Shards R)
  | 0, _, _ => none
  | fuel + 1, rd, sh =>
    if sh.paths.length ≤ sh.fileIndex ∧ (loop = false ∨ sh.paths = []) then some (false, rd, sh)
    else
      let sh := if sh.paths.length ≤ sh.fileIndex then sh.nextEpoch else sh
      let path := sh.paths.getD sh.fileIndex ""
      -- a reader that cannot open its file is closed
      (RecordReader.openFile path (files path)).toOption.elim
        (openNext loop fuel { rd with f := none } sh.advanced) fun rd => some (true, rd, sh.advanced)

namespace BatchReader

/-- The constructor. -/
def new (paths : List String) (batchSize shuffleBuffer : BitVec 32) (seed : R.State)
    (requireDist loop moveFallback : Bool) : Except String (BatchReader R) :=
  if paths.isEmpty then .error "no shard paths"
  else
    let shuffleBuffer := if shuffleBuffer.slt batchSize then batchSize else shuffleBuffer
    .ok ⟨⟨batchSize, shuffleBuffer, requireDist, loop, moveFallback⟩, ⟨paths, 0, 0, seed⟩, [], 0, 0, [], false⟩

/-- The first readers. -/
def openSlots (loop : Bool) (fuel : Nat) : Nat → Shards R → Option (List Slot × Shards R)
  | 0, sh => some ([], sh)
  | n + 1, sh => (openNext files loop fuel ⟨none, 0⟩ sh).bind fun x =>
    (openSlots loop fuel n x.2.2).map fun y => (⟨x.2.1, x.1⟩ :: y.1, y.2)

/-- `ReadOne` at its first call. -/
def openReaders (fuel : Nat) (s : BatchReader R) : Option (BatchReader R) :=
  if s.slots.isEmpty then
    (openSlots files s.settings.loop fuel (min kOpenReaders s.shards.paths.length) s.shards.shuffled).map
      fun x => { s with slots := x.1, shards := x.2 }
  else some s

end BatchReader

/-- A record that only `require_dist` passes over. -/
def Settings.skips (c : Settings) (r : Record) : Bool :=
  c.requireDist && decide (r.head.nDist = 0#16) && !(c.moveFallback && decide (r.head.move ≠ 0#16))

namespace BatchReader

/-- The loop of `ReadOne`, where `tries` are left. A record that is passed over takes no try. -/
def tryRead : Nat → Nat → BatchReader R → Option (Option Record × BatchReader R)
  | 0, _, _ => none
  | _ + 1, 0, s => some (none, s)
  | fuel + 1, tries + 1, s =>
    let i := s.nextSlot % s.slots.length
    let slot := s.slots.getD i ⟨⟨none, 0⟩, false⟩
    let s := { s with nextSlot := s.nextSlot + 1 }
    if !slot.live then tryRead fuel tries s
    else
      let read := slot.reader.next
      read.1.elim
        ((openNext files s.settings.loop fuel read.2 s.shards).bind fun x =>
          let s := { s with slots := s.slots.set i ⟨x.2.1, x.1⟩, shards := x.2.2 }
          if s.slots.any (·.live) then tryRead fuel tries s else some (none, s))
        fun r =>
          let s := { s with slots := s.slots.set i ⟨read.2, true⟩, recordsRead := s.recordsRead + 1 }
          if s.settings.skips r then tryRead fuel (tries + 1) s else some (some r, s)

/-- `ReadOne`. -/
def readOne (fuel : Nat) (s : BatchReader R) : Option (Option Record × BatchReader R) :=
  (s.openReaders files fuel).bind fun s => s.tryRead files fuel (2 * s.slots.length + 2)

/-- The first loop of `Take` goes on; the size of the buffer is cast to `size_t`. -/
def wants (s : BatchReader R) : Bool :=
  decide (s.buffer.length < (s.settings.shuffleBuffer.signExtend 64).toNat) && !s.exhausted

/-- What `Take` makes of the result of `ReadOne`. -/
def received (s : BatchReader R) (r : Option Record) : BatchReader R :=
  r.elim { s with exhausted := true } fun r => { s with buffer := s.buffer ++ [r] }

/-- The first loop of `Take`. -/
def fill : Nat → BatchReader R → Option (BatchReader R)
  | 0, _ => none
  | fuel + 1, s =>
    if s.wants then (s.readOne files fuel).bind fun x => fill fuel (x.2.received x.1) else some s

/-- The second loop of `Take`: random records of the buffer, where `n` are left. -/
def emit : Nat → List Record → BatchReader R → List Record × BatchReader R
  | 0, out, s => (out, s)
  | n + 1, out, s =>
    if s.buffer ≠ [] ∧ (out.length : Int) < s.settings.batchSize.toInt then
      let g := R.draw s.shards.rng
      let i := g.1 % s.buffer.length
      emit n (out ++ (s.buffer[i]?).toList)
        { s with
          buffer := (s.buffer.getLast?.elim s.buffer (s.buffer.set i)).dropLast
          shards := { s.shards with rng := g.2 } }
    else (out, s)

/-- `Next`; the end is reported by an empty batch. -/
def next (fuel : Nat) (s : BatchReader R) : Option (List Record × BatchReader R) :=
  (s.fill files fuel).map fun s => s.emit s.buffer.length []

end BatchReader

end Functions

/-! ## The shards -/

section Shards

variable {R : Rng} {files : String → Option (List (BitVec 8))} {loop : Bool} {sh sh' : Shards R} {rd rd' : RecordReader}
  {fuel : Nat} {b : Bool}

/-- The records of a shard, if it can be opened. -/
def shardRecords (files : String → Option (List (BitVec 8))) (path : String) : Option (List Record) :=
  (RecordReader.openFile path (files path)).toOption.map RecordReader.remaining

namespace Shards

/-- The records of the shards that are still to be opened in this epoch. -/
def rest (files : String → Option (List (BitVec 8))) (sh : Shards R) : List Record :=
  (sh.paths.drop sh.fileIndex).flatMap fun p => (shardRecords files p).getD []

/-- There is something to open for ever. -/
def Serves (files : String → Option (List (BitVec 8))) (loop : Bool) (sh : Shards R) : Prop :=
  loop = true → ∃ p ∈ sh.paths, (shardRecords files p).isSome = true

/-- How many shards may have to be tried. -/
def tries (files : String → Option (List (BitVec 8))) (sh : Shards R) : Nat :=
  (sh.paths.length - sh.fileIndex) +
    if (sh.paths.drop sh.fileIndex).any fun p => (shardRecords files p).isSome then 0 else sh.paths.length

/-- The next shard that can be opened. -/
def supply (files : String → Option (List (BitVec 8))) (loop : Bool) (sh : Shards R) :
    Option (List Record) × Shards R :=
  (openNext files loop (2 * sh.paths.length + 1) ⟨none, 0⟩ sh).elim (none, sh) fun x =>
    (if x.1 then some x.2.1.remaining else none, x.2.2)

theorem perm_nextEpoch (sh : Shards R) : sh.nextEpoch.paths.Perm sh.paths := R.perm _ _

end Shards

/-- The shards in another order serve as well. -/
theorem Shards.Serves.perm (h : sh.Serves files loop) (hperm : sh'.paths.Perm sh.paths) :
    sh'.Serves files loop := by
  intro hloop
  obtain ⟨p, hp, hsome⟩ := h hloop
  exact ⟨p, hperm.mem_iff.mpr hp, hsome⟩

/-- The shards that are left after one has been tried, in this epoch or in the next. -/
theorem perm_advanced {sh0 : Shards R} (h : sh0 = sh ∨ sh.paths.length ≤ sh.fileIndex ∧ loop = true ∧ sh0 = sh.nextEpoch) :
    sh0.advanced.paths.Perm sh.paths := by
  rcases h with rfl | ⟨-, -, rfl⟩
  · exact .refl _
  · exact sh.perm_nextEpoch

/-- What `OpenNextInto` does first: there are no more shards, or it tries one, at the start of the next epoch if
all have been tried. -/
theorem openNext_cases (files : String → Option (List (BitVec 8))) (loop : Bool) (sh : Shards R) :
    (sh.paths.length ≤ sh.fileIndex ∧ (loop = false ∨ sh.paths = []) ∧
      ∀ fuel rd, openNext files loop (fuel + 1) rd sh = some (false, rd, sh)) ∨
    ∃ sh0 p, (sh0 = sh ∨ sh.paths.length ≤ sh.fileIndex ∧ loop = true ∧ sh0 = sh.nextEpoch) ∧
      sh0.paths[sh0.fileIndex]? = some p ∧
      ∀ fuel rd, openNext files loop (fuel + 1) rd sh = (RecordReader.openFile p (files p)).toOption.elim
        (openNext files loop fuel { rd with f := none } sh0.advanced) fun rd => some (true, rd, sh0.advanced) := by
  by_cases hend : sh.paths.length ≤ sh.fileIndex ∧ (loop = false ∨ sh.paths = [])
  · refine .inl ⟨hend.1, hend.2, fun fuel rd => ?_⟩
    rw [openNext, if_pos hend]
  obtain ⟨sh0, hsh0⟩ : ∃ x, (if sh.paths.length ≤ sh.fileIndex then sh.nextEpoch else sh) = x := ⟨_, rfl⟩
  have hlt : sh0.fileIndex < sh0.paths.length := by
    rw [← hsh0]
    split
    · rename_i hle
      rw [sh.perm_nextEpoch.length_eq]
      exact List.length_pos_iff.mpr fun h => hend ⟨hle, .inr h⟩
    · exact not_le.mp ‹_›
  refine .inr ⟨sh0, sh0.paths[sh0.fileIndex], ?_, List.getElem?_eq_getElem hlt, fun fuel rd => ?_⟩
  · by_cases hle : sh.paths.length ≤ sh.fileIndex
    · rw [if_pos hle] at hsh0
      exact .inr ⟨hle, Bool.not_eq_false _ ▸ fun h => hend ⟨hle, .inl h⟩, hsh0.symm⟩
    · rw [if_neg hle] at hsh0
      exact .inl hsh0.symm
  · rw [openNext, if_neg hend]
    dsimp only
    rw [hsh0, List.getD_eq_getElem _ _ hlt]

/-- Only the reader of a slot without a shard depends on the one before, and more fuel makes no difference. -/
theorem openNext_stable (h : openNext files loop fuel rd sh = some (b, rd', sh')) {fuel' : Nat} (hle : fuel ≤ fuel')
    (rd1 : RecordReader) :
    ∃ rd2, openNext files loop fuel' rd1 sh = some (b, rd2, sh') ∧ (b = true ∨ rd1 = rd → rd2 = rd') := by
  induction fuel generalizing fuel' rd rd1 sh with
  | zero => cases h
  | succ fuel ih =>
    obtain ⟨k, rfl⟩ : ∃ k, fuel' = k + 1 := ⟨fuel' - 1, by omega⟩
    rcases openNext_cases files loop sh with ⟨-, -, hend⟩ | ⟨sh0, p, -, -, hstep⟩
    · rw [hend] at h
      cases h
      exact ⟨rd1, hend k rd1, fun h => h.elim nofun id⟩
    · rw [hstep] at h ⊢
      cases hopen : (RecordReader.openFile p (files p)).toOption with
      | none =>
        rw [hopen, Option.elim_none] at h
        obtain ⟨rd2, h2, hrd⟩ := ih h (Nat.le_of_succ_le_succ hle) { rd1 with f := none }
        exact ⟨rd2, h2, fun h => hrd (h.imp_right (congrArg fun rd : RecordReader => { rd with f := none }))⟩
      | some rd =>
        rw [hopen, Option.elim_some] at h
        cases h
        exact ⟨_, rfl, fun _ => rfl⟩

theorem drop_fileIndex {p : String} (hp : sh.paths[sh.fileIndex]? = some p) :
    sh.paths.drop sh.fileIndex = p :: sh.advanced.paths.drop sh.advanced.fileIndex := by
  obtain ⟨hlt, rfl⟩ := List.getElem?_eq_some_iff.mp hp
  exact List.drop_eq_getElem_cons hlt

theorem tries_advanced {p : String} (hp : sh.paths[sh.fileIndex]? = some p)
    (hnone : (shardRecords files p).isSome = false) : sh.advanced.tries files + 1 = sh.tries files := by
  have hlt := (List.getElem?_eq_some_iff.mp hp).1
  have hany : (sh.paths.drop sh.fileIndex).any (fun p => (shardRecords files p).isSome) =
      (sh.advanced.paths.drop sh.advanced.fileIndex).any fun p => (shardRecords files p).isSome := by
    rw [drop_fileIndex hp, List.any_cons, hnone, Bool.false_or]
  have hlength : sh.advanced.paths.length = sh.paths.length := rfl
  rw [Shards.tries, Shards.tries, hany, hlength]
  change sh.paths.length - (sh.fileIndex + 1) + _ + 1 = _
  split <;> omega

/-- A new epoch takes no more tries than there were. -/
theorem tries_nextEpoch (hserves : sh.Serves files loop) (hloop : loop = true)
    (hend : sh.paths.length ≤ sh.fileIndex) : sh.nextEpoch.tries files ≤ sh.tries files := by
  obtain ⟨p, hp, hsome⟩ := hserves hloop
  have hany : (sh.nextEpoch.paths.drop 0).any (fun p => (shardRecords files p).isSome) = true :=
    List.any_eq_true.mpr ⟨p, sh.perm_nextEpoch.mem_iff.mpr hp, hsome⟩
  have hnone : (sh.paths.drop sh.fileIndex).any (fun p => (shardRecords files p).isSome) = false := by
    rw [List.drop_eq_nil_of_le hend, List.any_nil]
  have hlength := sh.perm_nextEpoch.length_eq
  rw [Shards.tries, Shards.tries, hnone]
  change sh.nextEpoch.paths.length - 0 + (if (sh.nextEpoch.paths.drop 0).any _ = true then 0 else _) ≤ _
  rw [if_pos hany, if_neg Bool.false_ne_true]
  omega

/-- With something to open for ever, a shard is found. -/
theorem openNext_returns (hserves : sh.Serves files loop) (hfuel : sh.tries files < fuel) (rd : RecordReader) :
    ∃ x, openNext files loop fuel rd sh = some x := by
  induction fuel generalizing rd sh with
  | zero => omega
  | succ fuel ih =>
    rcases openNext_cases files loop sh with ⟨-, -, hend⟩ | ⟨sh0, p, hsh0, hp, hstep⟩
    · exact ⟨_, hend fuel rd⟩
    rw [hstep]
    cases hopen : (RecordReader.openFile p (files p)).toOption with
    | some rd => exact ⟨_, rfl⟩
    | none =>
      have hnone : (shardRecords files p).isSome = false := by
        rw [shardRecords, hopen]
        rfl
      have hadvanced := tries_advanced hp hnone
      rw [Option.elim_none]
      rcases hsh0 with rfl | ⟨hend, hloop, rfl⟩
      · have hless : sh0.advanced.tries files < fuel := by omega
        have hserves' : sh0.advanced.Serves files loop := hserves
        exact ih hserves' hless _
      · have hepoch := tries_nextEpoch hserves hloop hend
        have hless : sh.nextEpoch.advanced.tries files < fuel := by omega
        refine ih (fun h => ?_) hless _
        obtain ⟨q, hq, hsome⟩ := hserves h
        exact ⟨q, sh.perm_nextEpoch.mem_iff.mpr hq, hsome⟩

/-- The shards stay the same ones. -/
theorem openNext_perm (h : openNext files loop fuel rd sh = some (b, rd', sh')) : sh'.paths.Perm sh.paths := by
  induction fuel generalizing rd sh with
  | zero => cases h
  | succ fuel ih =>
    rcases openNext_cases files loop sh with ⟨-, -, hend⟩ | ⟨sh0, p, hsh0, -, hstep⟩
    · rw [hend] at h
      cases h
      exact .refl _
    · have hperm := perm_advanced hsh0
      rw [hstep] at h
      cases hopen : (RecordReader.openFile p (files p)).toOption with
      | none =>
        rw [hopen, Option.elim_none] at h
        exact (ih h).trans hperm
      | some rd =>
        rw [hopen, Option.elim_some] at h
        cases h
        exact hperm

/-- Without looping the records of the epoch are handed out one shard at a time. -/
theorem openNext_rest (h : openNext files false fuel rd sh = some (b, rd', sh')) :
    sh.rest files = (if b then rd'.remaining else []) ++ sh'.rest files := by
  induction fuel generalizing rd sh with
  | zero => cases h
  | succ fuel ih =>
    rcases openNext_cases files false sh with ⟨-, -, hend⟩ | ⟨sh0, p, hsh0, hp, hstep⟩
    · rw [hend] at h
      cases h
      rfl
    · obtain rfl : sh0 = sh := hsh0.elim id fun h => nomatch h.2.1
      have hrest : sh0.rest files = (shardRecords files p).getD [] ++ sh0.advanced.rest files := by
        rw [Shards.rest, drop_fileIndex hp, List.flatMap_cons]
        rfl
      rw [hstep] at h
      rw [hrest, shardRecords]
      cases hopen : (RecordReader.openFile p (files p)).toOption with
      | none =>
        rw [hopen, Option.elim_none] at h
        exact ih h
      | some rd =>
        rw [hopen, Option.elim_some] at h
        cases h
        rfl

/-- The opening of a slot, whatever its reader was. -/
theorem openNext_supply (hserves : sh.Serves files loop) (rd : RecordReader) : ∃ b rd',
    (∀ fuel, 2 * sh.paths.length + 1 ≤ fuel →
      openNext files loop fuel rd sh = some (b, rd', (sh.supply files loop).2)) ∧
    (sh.supply files loop).1 = if b then some rd'.remaining else none := by
  have htries : sh.tries files < 2 * sh.paths.length + 1 := by
    rw [Shards.tries]
    split <;> omega
  obtain ⟨⟨b, rd1, sh1⟩, hx⟩ := openNext_returns hserves htries ⟨none, 0⟩
  obtain ⟨rd2, h2, hrd⟩ := openNext_stable hx le_rfl rd
  have hsupply : sh.supply files loop = (if b then some rd1.remaining else none, sh1) := by
    rw [Shards.supply, hx, Option.elim_some]
  rw [hsupply]
  refine ⟨b, rd2, fun fuel hfuel => ?_, ?_⟩
  · obtain ⟨rd3, h3, hrd3⟩ := openNext_stable h2 hfuel rd
    rw [h3, hrd3 (.inr rfl)]
  · cases b with
    | false => rfl
    | true => rw [hrd (.inl rfl)]

theorem supply_perm (files : String → Option (List (BitVec 8))) (loop : Bool) (sh : Shards R) :
    (sh.supply files loop).2.paths.Perm sh.paths := by
  rw [Shards.supply]
  cases hx : openNext files loop (2 * sh.paths.length + 1) ⟨none, 0⟩ sh with
  | none => exact .refl _
  | some x => exact openNext_perm hx

theorem supply_rest (files : String → Option (List (BitVec 8))) (sh : Shards R) :
    (sh.rest files).Perm ((sh.supply files false).1.getD [] ++ (sh.supply files false).2.rest files) := by
  rw [Shards.supply]
  cases hx : openNext files false (2 * sh.paths.length + 1) ⟨none, 0⟩ sh with
  | none => exact .refl _
  | some x =>
    obtain ⟨b, rd, sh1⟩ := x
    rw [openNext_rest hx]
    cases b <;> exact .refl _

end Shards

/-! ## The slots as a ring -/

/-- What is left in a slot. -/
def Slot.stream (x : Slot) : Option (List Record) := if x.live then some x.reader.remaining else none

namespace BatchReader

section Ring

variable {R : Rng} {files : String → Option (List (BitVec 8))} {s s' s1 : BatchReader R} {fuel n : Nat}

/-- The slots from the next one on, and the shards to come. -/
def ring (s : BatchReader R) : SlotRing Record (Shards R) := ⟨(s.slots.map Slot.stream).rotate s.nextSlot, s.shards⟩

/-- The records that are not passed over. -/
def passes (s : BatchReader R) (r : Record) : Bool := !s.settings.skips r

/-- The slots are there, and there is something to open for ever. -/
structure Ready (files : String → Option (List (BitVec 8))) (s : BatchReader R) : Prop where
  slots : s.slots ≠ []
  serves : s.shards.Serves files s.settings.loop

/-- What `ReadOne` leaves. -/
structure Kept (s s' : BatchReader R) : Prop where
  settings : s'.settings = s.settings
  buffer : s'.buffer = s.buffer
  exhausted : s'.exhausted = s.exhausted
  slots : s'.slots.length = s.slots.length
  paths : s'.shards.paths.Perm s.shards.paths

theorem passes_congr (h : s'.settings = s.settings) : s'.passes = s.passes := by
  funext r
  rw [passes, passes, h]

theorem Kept.refl (s : BatchReader R) : s.Kept s := ⟨rfl, rfl, rfl, rfl, .refl _⟩

theorem Kept.trans (h : s.Kept s1) (h' : s1.Kept s') : s.Kept s' where
  settings := h'.settings.trans h.settings
  buffer := h'.buffer.trans h.buffer
  exhausted := h'.exhausted.trans h.exhausted
  slots := h'.slots.trans h.slots
  paths := h'.paths.trans h.paths

/-- What the loop of `ReadOne` does with one slot. -/
inductive Visited (files : String → Option (List (BitVec 8))) (s s' : BatchReader R) : Visit Record → Prop
  | found {r : Record} (read : ∀ fuel n, s.tryRead files (fuel + 1) (n + 1) = some (some r, s')) :
      Visited files s s' (.found r)
  | skipped (read : ∀ fuel n, s.tryRead files (fuel + 1) (n + 1) = s'.tryRead files fuel (n + 1)) :
      Visited files s s' .skipped
  | missed (N : Nat) (read : ∀ fuel, N ≤ fuel → ∀ n,
      s.tryRead files (fuel + 1) (n + 1) = s'.tryRead files fuel n) : Visited files s s' .missed
  | idle (N : Nat) (read : ∀ fuel, N ≤ fuel → ∀ n, s.tryRead files (fuel + 1) (n + 1) = some (none, s'))
      (idle : ∀ x ∈ s'.ring.slots, x = none) : Visited files s s' .missed

/-- The slot that is next, and the ring after a change of it. -/
theorem ring_next (hs : s.Ready files) : ∃ slot rest,
    s.slots.getD (s.nextSlot % s.slots.length) ⟨⟨none, 0⟩, false⟩ = slot ∧
    s.slots.set (s.nextSlot % s.slots.length) slot = s.slots ∧
    s.ring = ⟨slot.stream :: rest, s.shards⟩ ∧
    ∀ (y : Slot) (t : BatchReader R), t.slots = s.slots.set (s.nextSlot % s.slots.length) y →
      t.nextSlot = s.nextSlot + 1 → t.ring = ⟨rest ++ [y.stream], t.shards⟩ := by
  have hlt : s.nextSlot % s.slots.length < s.slots.length := Nat.mod_lt _ (List.length_pos_iff.mpr hs.slots)
  have hstream : (s.slots.map Slot.stream)[s.nextSlot % (s.slots.map Slot.stream).length]? =
      some s.slots[s.nextSlot % s.slots.length].stream := by
    rw [List.length_map, List.getElem?_map, List.getElem?_eq_getElem hlt]
    rfl
  obtain ⟨rest, hrotate, hset⟩ := rotate_set hstream
  rw [List.length_map] at hset
  refine ⟨_, rest, List.getD_eq_getElem _ _ hlt, List.set_getElem_self hlt,
    congrArg (SlotRing.mk · s.shards) hrotate, fun y t hslots hnext => ?_⟩
  rw [ring, hslots, hnext, List.map_set, hset]

/-- A change of a slot leaves the others. -/
theorem Ready.set {t : BatchReader R} {i : Nat} {y : Slot} (hs : s.Ready files) (hslots : t.slots = s.slots.set i y)
    (hserves : t.shards.Serves files t.settings.loop) : t.Ready files where
  slots := fun h => by
    rw [hslots, ← List.length_eq_zero_iff, List.length_set] at h
    exact hs.slots (List.length_eq_zero_iff.mp h)
  serves := hserves

/-- One slot is one visit of the ring. -/
theorem visited_of_ready (hs : s.Ready files) : ∃ v s', s.ring.visit s.passes (Shards.supply files s.settings.loop) =
    (v, s'.ring) ∧ Visited files s s' v ∧ s'.Ready files ∧ s.Kept s' := by
  obtain ⟨⟨reader, live⟩, rest, hget, hsame, hring, hnext⟩ := ring_next hs
  obtain ⟨i, hi⟩ : ∃ i, s.nextSlot % s.slots.length = i := ⟨_, rfl⟩
  rw [hi] at hget hsame hnext
  rw [hring]
  cases live with
  | false =>
    -- there is no shard
    obtain ⟨t, ht⟩ : ∃ t : BatchReader R, { s with nextSlot := s.nextSlot + 1 } = t := ⟨_, rfl⟩
    have hslots : t.slots = s.slots.set i ⟨reader, false⟩ := by rw [← ht, hsame]
    refine ⟨.missed, t, ?_, .missed 0 fun fuel _ n => ?_, hs.set hslots (ht ▸ hs.serves), ?_⟩
    · rw [hnext _ t hslots (ht ▸ rfl), ← ht]
      rfl
    · rw [tryRead, hi, hget, ht]
      rfl
    · rw [← ht]
      exact ⟨rfl, rfl, rfl, rfl, .refl _⟩
  | true =>
    have hremaining := reader.remaining_next
    cases hread : reader.next.1 with
    | some r =>
      -- the shard has a record
      obtain ⟨t, ht⟩ : ∃ t : BatchReader R, { s with
          slots := s.slots.set i ⟨reader.next.2, true⟩
          nextSlot := s.nextSlot + 1
          recordsRead := s.recordsRead + 1 } = t := ⟨_, rfl⟩
      have hslots : t.slots = s.slots.set i ⟨reader.next.2, true⟩ := ht ▸ rfl
      have hring1 : t.ring = ⟨rest ++ [some reader.next.2.remaining], s.shards⟩ := by
        rw [hnext _ t hslots (ht ▸ rfl), ← ht]
        rfl
      have hkept : s.Kept t := by
        rw [← ht]
        exact ⟨rfl, rfl, rfl, List.length_set, .refl _⟩
      have hstep : ∀ fuel n, s.tryRead files (fuel + 1) (n + 1) =
          if s.settings.skips r then t.tryRead files fuel (n + 1) else some (some r, t) := by
        intro fuel n
        rw [← ht, tryRead, hi, hget]
        dsimp only
        rw [if_neg (by decide), hread, Option.elim_some]
      rw [hread, Option.elim_some] at hremaining
      rw [Slot.stream, if_pos rfl, hremaining, SlotRing.visit_cons, ← hring1]
      by_cases hskip : s.settings.skips r = true
      · refine ⟨.skipped, t, ?_, .skipped fun fuel n => ?_, hs.set hslots (ht ▸ hs.serves), hkept⟩
        · rw [passes, hskip]
          rfl
        · rw [hstep, if_pos hskip]
      · refine ⟨.found r, t, ?_, .found fun fuel n => ?_, hs.set hslots (ht ▸ hs.serves), hkept⟩
        · rw [passes, Bool.eq_false_of_not_eq_true hskip]
          rfl
        · rw [hstep, if_neg hskip]
    | none =>
      -- the shard has ended, and the next one is opened
      obtain ⟨b, rd, hopen, hsupply⟩ := openNext_supply hs.serves reader.next.2
      obtain ⟨t, ht⟩ : ∃ t : BatchReader R, { s with
          slots := s.slots.set i ⟨rd, b⟩
          nextSlot := s.nextSlot + 1
          shards := (s.shards.supply files s.settings.loop).2 } = t := ⟨_, rfl⟩
      have hslots : t.slots = s.slots.set i ⟨rd, b⟩ := ht ▸ rfl
      have hkept : s.Kept t := by
        rw [← ht]
        exact ⟨rfl, rfl, rfl, List.length_set, supply_perm _ _ _⟩
      have hready : t.Ready files := hs.set hslots (by rw [← ht]; exact hs.serves.perm (supply_perm _ _ _))
      have hring1 : t.ring = ⟨rest ++ [(s.shards.supply files s.settings.loop).1],
          (s.shards.supply files s.settings.loop).2⟩ := by
        rw [hnext _ t hslots (ht ▸ rfl), hsupply, ← ht]
        rfl
      have hstep : ∀ fuel, 2 * s.shards.paths.length + 1 ≤ fuel → ∀ n, s.tryRead files (fuel + 1) (n + 1) =
          if t.slots.any (·.live) then t.tryRead files fuel n else some (none, t) := by
        intro fuel hfuel n
        rw [← ht, tryRead, hi, hget]
        dsimp only
        rw [if_neg (by decide), hread, Option.elim_none, hopen fuel hfuel]
        rfl
      rw [hread, Option.elim_none] at hremaining
      rw [Slot.stream, if_pos rfl, hremaining, SlotRing.visit_ended, ← hring1]
      by_cases hany : t.slots.any (·.live) = true
      · refine ⟨.missed, t, rfl, .missed (2 * s.shards.paths.length + 1) fun fuel hfuel n => ?_, hready, hkept⟩
        rw [hstep fuel hfuel, if_pos hany]
      · refine ⟨.missed, t, rfl, .idle (2 * s.shards.paths.length + 1) (fun fuel hfuel n => ?_) fun x hx => ?_,
          hready, hkept⟩
        · rw [hstep fuel hfuel, if_neg hany]
        · obtain ⟨y, hy, rfl⟩ := List.mem_map.mp (List.mem_rotate.mp hx)
          exact if_neg fun hlive => hany (List.any_eq_true.mpr ⟨y, hy, hlive⟩)

/-- The loop of `ReadOne` is a scan of the ring. -/
theorem tryRead_scan (hs : s.Ready files) (n : Nat) : ∃ out s' N,
    (∀ fuel, N ≤ fuel → s.tryRead files fuel n = some (out, s')) ∧
      Scan s.passes (Shards.supply files s.settings.loop) n s.ring out s'.ring ∧ s'.Ready files ∧ s.Kept s' := by
  induction n generalizing s with
  | zero =>
    refine ⟨none, s, 1, fun fuel hfuel => ?_, .giveUp, hs, .refl s⟩
    obtain ⟨m, rfl⟩ : ∃ m, fuel = m + 1 := ⟨fuel - 1, by omega⟩
    rfl
  | succ n ih =>
    induction hsize : s.ring.size using Nat.strong_induction_on generalizing s with
    | _ size ihsize =>
      subst hsize
      obtain ⟨v, t, hvisit, hvisited, hready, hkept⟩ := visited_of_ready hs
      have hpasses : t.passes = s.passes := passes_congr hkept.settings
      cases hvisited with
      | @found r read =>
        refine ⟨some r, t, 1, fun fuel hfuel => ?_, .found hvisit, hready, hkept⟩
        obtain ⟨m, rfl⟩ : ∃ m, fuel = m + 1 := ⟨fuel - 1, by omega⟩
        exact read m n
      | skipped read =>
        -- the slots have a record less
        obtain ⟨out, s', N, hread, hscan, hready', hkept'⟩ := ihsize _ (SlotRing.size_of_skipped hvisit) hready rfl
        rw [hpasses, hkept.settings] at hscan
        refine ⟨out, s', N + 1, fun fuel hfuel => ?_, .skipped hvisit hscan, hready', hkept.trans hkept'⟩
        obtain ⟨m, rfl⟩ : ∃ m, fuel = m + 1 := ⟨fuel - 1, by omega⟩
        rw [read]
        exact hread m (by omega)
      | missed M read =>
        obtain ⟨out, s', N, hread, hscan, hready', hkept'⟩ := ih hready
        rw [hpasses, hkept.settings] at hscan
        refine ⟨out, s', max M N + 1, fun fuel hfuel => ?_, .missed hvisit hscan, hready', hkept.trans hkept'⟩
        obtain ⟨m, rfl⟩ : ∃ m, fuel = m + 1 := ⟨fuel - 1, by omega⟩
        rw [read m (by omega)]
        exact hread m (by omega)
      | idle M read idle =>
        refine ⟨none, t, M + 1, fun fuel hfuel => ?_, .idle hvisit idle, hready, hkept⟩
        obtain ⟨m, rfl⟩ : ∃ m, fuel = m + 1 := ⟨fuel - 1, by omega⟩
        exact read m (by omega) n

end Ring

end BatchReader

/-! ## Records that are left -/

/-- The records of all shards that are not passed over. -/
def Settings.deliverable (c : Settings) (files : String → Option (List (BitVec 8))) (paths : List String) :
    List Record :=
  (paths.flatMap fun p => (shardRecords files p).getD []).filter fun r => !c.skips r

namespace BatchReader

section Delivery

variable {R : Rng} {files : String → Option (List (BitVec 8))} {s s' s1 : BatchReader R} {fuel n : Nat}
  {paths : List String} {c : Settings} {out batch : List Record} {batches : List (List Record)}

/-- The records that are left in the slots and in the shards of this epoch. -/
def left (files : String → Option (List (BitVec 8))) (s : BatchReader R) : List Record :=
  (s.ring.left (Shards.rest files)).filter s.passes

/-- The records that there is reason to go on for. -/
def pending (files : String → Option (List (BitVec 8))) (s : BatchReader R) : List Record :=
  if s.settings.loop then s.settings.deliverable files s.shards.paths else s.left files

/-- If there is a record, the next one comes before `ReadOne` gives up. -/
def Prompt (files : String → Option (List (BitVec 8))) (s : BatchReader R) : Prop :=
  s.pending files ≠ [] → Comes s.passes (Shards.supply files s.settings.loop) (2 * s.slots.length + 1) s.ring

/-- The first loop of `Take`, where the states before the loop of `ReadOne` all meet a condition. -/
inductive Fills (files : String → Option (List (BitVec 8))) (ok : BatchReader R → Prop) :
    BatchReader R → BatchReader R → Prop
  | full {s : BatchReader R} (full : s.wants = false) : Fills files ok s s
  | read {s s1 s2 s' : BatchReader R} {r : Option Record} (N : Nat) (wants : s.wants = true)
      (opened : ∀ fuel, N ≤ fuel → s.openReaders files fuel = some s1) (met : ok s1)
      (read : ∀ fuel, N ≤ fuel → s1.tryRead files fuel (2 * s1.slots.length + 2) = some (r, s2))
      (rest : Fills files ok (s2.received r) s') : Fills files ok s s'

/-- Calls of `Next` one after the other, and the batches that they return. -/
inductive Calls (files : String → Option (List (BitVec 8))) (ok : BatchReader R → Prop) (s0 : BatchReader R) :
    List (List Record) → BatchReader R → Prop
  | start : Calls files ok s0 [] s0
  | next {batches : List (List Record)} {s s1 : BatchReader R} (before : Calls files ok s0 batches s)
      (fills : Fills files ok s s1) :
      Calls files ok s0 (batches ++ [(s1.emit s1.buffer.length []).1]) (s1.emit s1.buffer.length []).2

/-- The loop with its condition is the loop of the source. -/
theorem Fills.fill_eq {ok : BatchReader R → Prop} (h : Fills files ok s s') :
    ∃ N, ∀ fuel, N ≤ fuel → s.fill files fuel = some s' := by
  induction h with
  | full hfull =>
    refine ⟨1, fun fuel hfuel => ?_⟩
    obtain ⟨m, rfl⟩ : ∃ m, fuel = m + 1 := ⟨fuel - 1, by omega⟩
    rw [fill, hfull, if_neg Bool.false_ne_true]
  | read N hwants opened _ read _ ih =>
    obtain ⟨M, hM⟩ := ih
    refine ⟨max N M + 1, fun fuel hfuel => ?_⟩
    obtain ⟨m, rfl⟩ : ∃ m, fuel = m + 1 := ⟨fuel - 1, by omega⟩
    rw [fill, if_pos hwants, readOne, opened m (by omega), Option.bind_some, read m (by omega), Option.bind_some]
    exact hM m (by omega)

/-- The first readers. -/
theorem openSlots_spec {loop : Bool} {sh : Shards R} (hserves : sh.Serves files loop) (n : Nat) :
    ∃ slots sh', (∀ fuel, 2 * sh.paths.length + 1 ≤ fuel →
        openSlots files loop fuel n sh = some (slots, sh')) ∧
      slots.length = n ∧ sh'.paths.Perm sh.paths ∧
      (loop = false → (sh.rest files).Perm (slots.flatMap (fun x => x.stream.getD []) ++ sh'.rest files)) := by
  induction n generalizing sh with
  | zero => exact ⟨[], sh, fun _ _ => rfl, rfl, .refl _, fun _ => .refl _⟩
  | succ n ih =>
    obtain ⟨b, rd, hopen, hsupply⟩ := openNext_supply hserves ⟨none, 0⟩
    have hperm := supply_perm files loop sh
    obtain ⟨slots, sh', hslots, hlength, hperm', hrest⟩ := ih (hserves.perm hperm)
    rw [hperm.length_eq] at hslots
    refine ⟨⟨rd, b⟩ :: slots, sh', fun fuel hfuel => ?_, congrArg (· + 1) hlength, hperm'.trans hperm, ?_⟩
    · rw [openSlots, hopen fuel hfuel, Option.bind_some, hslots fuel hfuel]
      rfl
    · rintro rfl
      have hfirst := supply_rest files sh
      rw [hsupply] at hfirst
      rw [List.flatMap_cons, List.append_assoc]
      exact hfirst.trans ((hrest rfl).append_left _)

/-- What is left depends on the slots and on the place in the shards. -/
theorem left_congr (hslots : s'.slots = s.slots) (hnext : s'.nextSlot = s.nextSlot)
    (hsettings : s'.settings = s.settings) (hpaths : s'.shards.paths = s.shards.paths)
    (hindex : s'.shards.fileIndex = s.shards.fileIndex) : s'.left files = s.left files := by
  rw [left, left, passes_congr hsettings, SlotRing.left, SlotRing.left, ring, ring, hslots, hnext]
  dsimp only
  rw [Shards.rest, Shards.rest, hpaths, hindex]

/-- The slots are open after the first part of `ReadOne`, and nothing is lost. -/
theorem openReaders_spec (hserves : s.shards.Serves files s.settings.loop) (hne : s.shards.paths ≠ [])
    (hfresh : s.slots = [] → s.shards.fileIndex = 0) : ∃ s1,
    (∀ fuel, 2 * s.shards.paths.length + 1 ≤ fuel → s.openReaders files fuel = some s1) ∧ s1.Ready files ∧
      s1.settings = s.settings ∧ s1.buffer = s.buffer ∧ s1.exhausted = s.exhausted ∧
      s1.shards.paths.Perm s.shards.paths ∧ (s.settings.loop = false → (s.left files).Perm (s1.left files)) := by
  by_cases hslots : s.slots = []
  · have hshuffled : s.shards.shuffled.paths.Perm s.shards.paths := R.perm _ _
    obtain ⟨slots, sh, hopen, hlength, hperm, hrest⟩ := openSlots_spec (hserves.perm hshuffled)
      (min kOpenReaders s.shards.paths.length)
    rw [hshuffled.length_eq] at hopen
    refine ⟨{ s with slots := slots, shards := sh }, fun fuel hfuel => ?_, ⟨fun h => ?_, ?_⟩, rfl, rfl, rfl,
      hperm.trans hshuffled, fun hloop => ?_⟩
    · rw [openReaders, if_pos (List.isEmpty_iff.mpr hslots), hopen fuel hfuel]
      rfl
    · -- there is a path at least
      have hzero : min kOpenReaders s.shards.paths.length = 0 := hlength.symm.trans (congrArg List.length h)
      have hpos := List.length_pos_iff.mpr hne
      rw [kOpenReaders] at hzero
      omega
    · exact hserves.perm (hperm.trans hshuffled)
    · refine List.Perm.filter _ ?_
      have hall : (s.shards.rest files).Perm (s.shards.shuffled.rest files) := by
        have hindex : s.shards.shuffled.fileIndex = 0 := hfresh hslots
        rw [Shards.rest, Shards.rest, hindex, hfresh hslots]
        exact (hshuffled.symm).flatMap_right _
      have hring : (s.ring.left (Shards.rest files)) = s.shards.rest files := by
        rw [SlotRing.left, ring, hslots]
        rfl
      have hflat : ((slots.map Slot.stream).rotate s.nextSlot).flatMap (·.getD []) |>.Perm
          (slots.flatMap fun x => x.stream.getD []) := by
        have hrotate := (List.rotate_perm (slots.map Slot.stream) s.nextSlot).flatMap_right fun x => x.getD []
        rwa [List.flatMap_map] at hrotate
      rw [hring]
      exact (hall.trans (hrest hloop)).trans (hflat.symm.append_right _)
  · refine ⟨s, fun fuel _ => ?_, ⟨hslots, hserves⟩, rfl, rfl, rfl, .refl _, fun _ => .refl _⟩
    rw [openReaders, if_neg fun h => hslots (List.isEmpty_iff.mp h)]

/-- What a run keeps: all records are returned, in the buffer or left, and the reader is exhausted only where
there is no reason to go on. -/
structure Tracked (files : String → Option (List (BitVec 8))) (paths : List String) (c : Settings)
    (out : List Record) (s : BatchReader R) : Prop where
  settings : s.settings = c
  shards : s.shards.paths.Perm paths
  fresh : s.slots = [] → s.shards.fileIndex = 0
  conserved : c.loop = false → (out ++ (s.buffer ++ s.left files)).Perm (c.deliverable files paths)
  spent : s.exhausted = true → s.pending files = []

theorem deliverable_perm {l : List String} (c : Settings) (h : l.Perm paths) :
    (c.deliverable files l).Perm (c.deliverable files paths) :=
  (h.flatMap_right _).filter _

/-- A scan takes its record of those that are left. -/
theorem left_scan {r : Option Record} (hkept : s.Kept s') (hloop : s.settings.loop = false)
    (h : Scan s.passes (Shards.supply files s.settings.loop) n s.ring r s'.ring) :
    (s.left files).Perm (r.toList ++ s'.left files) := by
  rw [hloop] at h
  rw [left, left, passes_congr hkept.settings]
  exact h.conserved (supply_rest files)

/-- The call of `ReadOne` in the first loop of `Take`. -/
theorem Tracked.read {r : Option Record} {N : Nat} (hs : s.Tracked files paths c out) (hne : paths ≠ [])
    (hserves : c.loop = true → ∃ p ∈ paths, (shardRecords files p).isSome = true) (hwants : s.wants = true)
    (opened : ∀ fuel, N ≤ fuel → s.openReaders files fuel = some s1) (met : s1.Prompt files)
    (read : ∀ fuel, N ≤ fuel → s1.tryRead files fuel (2 * s1.slots.length + 2) = some (r, s')) :
    (s'.received r).Tracked files paths c out := by
  have hserves' : s.shards.Serves files s.settings.loop := by
    rw [hs.settings]
    exact fun hloop => (hserves hloop).imp fun p hp => ⟨hs.shards.mem_iff.mpr hp.1, hp.2⟩
  have hne' : s.shards.paths ≠ [] := fun h => hne (List.nil_perm.mp (h ▸ hs.shards))
  obtain ⟨t, hopen, hready, hsettings, hbuffer, hexhausted, hperm, hleft⟩ :=
    openReaders_spec hserves' hne' hs.fresh
  obtain rfl : t = s1 := Option.some.inj ((hopen _ (le_max_right N _)).symm.trans (opened _ (le_max_left N _)))
  obtain ⟨r', t', M, hread, hscan, hready', hkept⟩ := tryRead_scan hready (2 * t.slots.length + 2)
  obtain ⟨rfl, rfl⟩ : r' = r ∧ t' = s' :=
    Prod.mk.inj (Option.some.inj ((hread _ (le_max_right N _)).symm.trans (read _ (le_max_left N _))))
  have hpaths := (hkept.paths.trans hperm).trans hs.shards
  have hc : t'.settings = c := (hkept.settings.trans hsettings).trans hs.settings
  have hnotspent : s.exhausted = false := by
    rw [wants, Bool.and_eq_true, Bool.not_eq_true'] at hwants
    exact hwants.2
  have hscanleft : c.loop = false → (s.left files).Perm (r'.toList ++ t'.left files) := by
    intro hloop
    have hloop' : s.settings.loop = false := hs.settings ▸ hloop
    exact (hleft hloop').trans (left_scan hkept (hsettings ▸ hloop') hscan)
  cases r' with
  | some a =>
    refine ⟨hc, hpaths, fun h => absurd h hready'.slots, fun hloop => ?_, fun h => ?_⟩
    · have hfill : (t'.received (some a)).buffer = s.buffer ++ [a] :=
        congrArg (· ++ [a]) (hkept.buffer.trans hbuffer)
      have hsame : (t'.received (some a)).left files = t'.left files := left_congr rfl rfl rfl rfl rfl
      rw [hfill, hsame, List.append_assoc]
      exact (((hscanleft hloop).symm.append_left _).append_left _).trans (hs.conserved hloop)
    · have hstill : (t'.received (some a)).exhausted = false := (hkept.exhausted.trans hexhausted).trans hnotspent
      exact absurd (hstill.symm.trans h) Bool.false_ne_true
  | none =>
    have hsame : (t'.received none).left files = t'.left files := left_congr rfl rfl rfl rfl rfl
    -- nothing has come, so that there was nothing to come
    have hpending : t.pending files = [] := by
      by_contra hmore
      exact absurd (hscan.isSome_iff.mpr (met hmore)) Bool.false_ne_true
    refine ⟨hc, hpaths, fun h => absurd h hready'.slots, fun hloop => ?_, fun _ => ?_⟩
    · have hfill : (t'.received none).buffer = s.buffer := hkept.buffer.trans hbuffer
      rw [hfill, hsame]
      exact (((hscanleft hloop).symm.append_left _).append_left _).trans (hs.conserved hloop)
    · have hset : (t'.received none).settings = t.settings := hkept.settings
      rw [pending] at hpending ⊢
      rw [hset, hsame]
      split at hpending
      · rename_i hloop
        rw [if_pos hloop]
        exact List.perm_nil.mp (hpending ▸ deliverable_perm t.settings hkept.paths)
      · rename_i hloop
        rw [if_neg hloop]
        have hperm' := left_scan hkept (Bool.eq_false_of_not_eq_true hloop) hscan
        rw [hpending] at hperm'
        exact List.nil_perm.mp hperm'

/-- Nothing is lost while the buffer is filled. -/
theorem Tracked.fills (h : Fills files (Prompt files) s s') (hs : s.Tracked files paths c out) (hne : paths ≠ [])
    (hserves : c.loop = true → ∃ p ∈ paths, (shardRecords files p).isSome = true) :
    s'.Tracked files paths c out ∧ s'.wants = false := by
  induction h with
  | full hfull => exact ⟨hs, hfull⟩
  | read N hwants opened met read _ ih => exact ih (hs.read hne hserves hwants opened met read)

/-! ## Batches -/

/-- A record of the buffer is taken, and the last one moves into its place. -/
theorem perm_take {α : Type} {l : List α} {i : Nat} {x : α} (hx : l[i]? = some x) :
    l.Perm (x :: (l.getLast?.elim l (l.set i)).dropLast) := by
  obtain rfl | ⟨init, last, rfl⟩ := List.eq_nil_or_concat' l
  · cases hx
  obtain ⟨hlt, hget⟩ := List.getElem?_eq_some_iff.mp hx
  rw [List.getLast?_concat, Option.elim_some]
  by_cases hi : i < init.length
  · rw [List.set_append_left _ _ hi, List.dropLast_concat]
    rw [List.getElem_append_left hi] at hget
    have hset := List.set_perm_cons_eraseIdx hi last
    have herase := List.getElem_cons_eraseIdx_perm hi
    rw [hget] at herase
    exact (List.perm_append_singleton last init).trans
      (((herase.symm.cons last).trans (List.Perm.swap x last _)).trans (hset.symm.cons x))
  · -- it is the last one
    have hlast : i = init.length := by
      rw [List.length_append, List.length_singleton] at hlt
      omega
    subst hlast
    rw [List.getElem_concat_length rfl] at hget
    rw [List.set_append_right _ _ le_rfl, Nat.sub_self, hget, List.set_cons_zero, List.dropLast_concat]
    exact List.perm_append_singleton x init

/-- The second loop of `Take`: the batch comes from the buffer, and all else stays. -/
theorem emit_spec (n : Nat) (out : List Record) (s : BatchReader R) (hn : s.buffer.length ≤ n) :
    ∃ batch s', s.emit n out = (out ++ batch, s') ∧ s.buffer.Perm (batch ++ s'.buffer) ∧
      s'.settings = s.settings ∧ s'.slots = s.slots ∧ s'.nextSlot = s.nextSlot ∧ s'.exhausted = s.exhausted ∧
      s'.shards.paths = s.shards.paths ∧ s'.shards.fileIndex = s.shards.fileIndex ∧
      (batch = [] → (out.length : Int) < s.settings.batchSize.toInt → s.buffer = []) := by
  induction n generalizing out s with
  | zero =>
    have hnil : s.buffer = [] := List.eq_nil_of_length_eq_zero (Nat.le_zero.mp hn)
    refine ⟨[], s, ?_, .refl _, rfl, rfl, rfl, rfl, rfl, rfl, fun _ _ => hnil⟩
    rw [emit, List.append_nil]
  | succ n ih =>
    by_cases hgo : s.buffer ≠ [] ∧ (out.length : Int) < s.settings.batchSize.toInt
    · obtain ⟨i, hi⟩ : ∃ i, (R.draw s.shards.rng).1 % s.buffer.length = i := ⟨_, rfl⟩
      have hlt : i < s.buffer.length := hi ▸ Nat.mod_lt _ (List.length_pos_iff.mpr hgo.1)
      have hget := List.getElem?_eq_getElem hlt
      have htake := perm_take hget
      have hlength : (s.buffer.getLast?.elim s.buffer (s.buffer.set i)).dropLast.length ≤ n := by
        have hsame := htake.length_eq
        rw [List.length_cons] at hsame
        omega
      obtain ⟨batch, s', hemit, hperm, h1, h2, h3, h4, h5, h6, -⟩ := ih (out ++ (s.buffer[i]?).toList)
        { s with
          buffer := (s.buffer.getLast?.elim s.buffer (s.buffer.set i)).dropLast
          shards := { s.shards with rng := (R.draw s.shards.rng).2 } } hlength
      refine ⟨s.buffer[i] :: batch, s', ?_, htake.trans (hperm.cons _), h1, h2, h3, h4, h5, h6,
        fun h => absurd h (List.cons_ne_nil _ _)⟩
      rw [emit, if_pos hgo]
      dsimp only
      rw [hi, hemit, hget, Option.toList_some, List.append_assoc]
      rfl
    · refine ⟨[], s, ?_, .refl _, rfl, rfl, rfl, rfl, rfl, rfl, fun _ hlt => ?_⟩
      · rw [emit, if_neg hgo, List.append_nil]
      · by_contra hne
        exact hgo ⟨hne, hlt⟩

/-! ## Runs -/

theorem size_pos {x : BitVec 32} (h : 1 ≤ x.toInt) : 0 < (x.signExtend 64).toNat := by
  have hextend := BitVec.toInt_signExtend_of_le (x := x) (v := 64) (by decide)
  rw [← hextend, BitVec.toInt_eq_toNat_cond] at h
  split at h <;> omega

/-- What a call of `Next` returns and leaves. -/
theorem Tracked.emit (hs : s.Tracked files paths c out) (hwants : s.wants = false) (hbatch : 1 ≤ c.batchSize.toInt)
    (hbuffer : c.batchSize.toInt ≤ c.shuffleBuffer.toInt) :
    (s.emit s.buffer.length []).2.Tracked files paths c (out ++ (s.emit s.buffer.length []).1) ∧
      ((s.emit s.buffer.length []).1 = [] → (s.emit s.buffer.length []).2.exhausted = true ∧
        (s.emit s.buffer.length []).2.buffer = []) := by
  obtain ⟨batch, s', hemit, hperm, hsettings, hslots, hnext, hexhausted, hpaths, hindex, hempty⟩ :=
    emit_spec s.buffer.length [] s le_rfl
  have hsame : s'.left files = s.left files := left_congr hslots hnext hsettings hpaths hindex
  rw [hemit, List.nil_append]
  refine ⟨⟨hsettings.trans hs.settings, hpaths ▸ hs.shards, fun h => ?_, fun hloop => ?_, fun h => ?_⟩, fun h => ?_⟩
  · exact hindex.trans (hs.fresh (hslots ▸ h))
  · rw [hsame, List.append_assoc, ← List.append_assoc batch]
    exact ((hperm.symm.append_right _).append_left _).trans (hs.conserved hloop)
  · have hpending := hs.spent (hexhausted ▸ h)
    rw [pending] at hpending ⊢
    rwa [hsettings, hpaths, hsame]
  · -- the buffer was empty, and still is
    have hnil := hempty h (by rw [hs.settings]; exact hbatch)
    rw [hnil] at hperm
    refine ⟨?_, (List.append_eq_nil_iff.mp (List.nil_perm.mp hperm)).2⟩
    rw [hexhausted]
    rw [wants, hnil, hs.settings, List.length_nil] at hwants
    rw [decide_eq_true (size_pos (hbatch.trans hbuffer)), Bool.true_and, Bool.not_eq_false'] at hwants
    exact hwants

/-- The buffer is filled in finitely many rounds. -/
theorem exists_fills (hserves : s.shards.Serves files s.settings.loop) (hne : s.shards.paths ≠ [])
    (hfresh : s.slots = [] → s.shards.fileIndex = 0) : ∃ s', Fills files (fun _ => True) s s' := by
  induction hroom : (s.settings.shuffleBuffer.signExtend 64).toNat - s.buffer.length generalizing s with
  | zero =>
    refine ⟨s, .full ?_⟩
    rw [wants, decide_eq_false (by omega), Bool.false_and]
  | succ room ih =>
    cases hwants : s.wants with
    | false => exact ⟨s, .full hwants⟩
    | true =>
      obtain ⟨s1, hopen, hready, hsettings, hbuffer, hexhausted, hperm, -⟩ := openReaders_spec hserves hne hfresh
      obtain ⟨r, s2, N, hread, -, hready2, hkept⟩ := tryRead_scan hready (2 * s1.slots.length + 2)
      obtain ⟨s', hs'⟩ : ∃ s', Fills files (fun _ => True) (s2.received r) s' := by
        cases r with
        | none =>
          refine ⟨_, .full ?_⟩
          rw [wants]
          exact Bool.and_false _
        | some a =>
          have hfull : (s2.received (some a)).buffer = s.buffer ++ [a] :=
            congrArg (· ++ [a]) (hkept.buffer.trans hbuffer)
          have hsame : (s2.received (some a)).settings = s.settings := hkept.settings.trans hsettings
          refine ih hready2.serves (fun h => hne ?_) (fun h => absurd h hready2.slots) ?_
          · have hpaths := hkept.paths.trans hperm
            exact List.nil_perm.mp (h ▸ hpaths)
          · rw [hsame, hfull, List.length_append, List.length_singleton]
            omega
      exact ⟨s', .read (max (2 * s.shards.paths.length + 1) N) hwants (fun fuel hfuel => hopen fuel (by omega)) trivial
        (fun fuel hfuel => hread fuel (by omega)) hs'⟩

/-- Every call of `Next` returns. -/
theorem next_returns (hserves : s.shards.Serves files s.settings.loop) (hne : s.shards.paths ≠ [])
    (hfresh : s.slots = [] → s.shards.fileIndex = 0) :
    ∃ batch s' N, ∀ fuel, N ≤ fuel → s.next files fuel = some (batch, s') := by
  obtain ⟨t, ht⟩ := exists_fills hserves hne hfresh
  obtain ⟨N, hN⟩ := ht.fill_eq
  refine ⟨(t.emit t.buffer.length []).1, (t.emit t.buffer.length []).2, N, fun fuel hfuel => ?_⟩
  rw [next, hN fuel hfuel]
  rfl

/-- What a run of calls keeps. -/
theorem Calls.tracked {s0 : BatchReader R} (h : s0.Calls files (Prompt files) batches s)
    (h0 : s0.Tracked files paths c []) (hne : paths ≠ [])
    (hserves : c.loop = true → ∃ p ∈ paths, (shardRecords files p).isSome = true) (hbatch : 1 ≤ c.batchSize.toInt)
    (hbuffer : c.batchSize.toInt ≤ c.shuffleBuffer.toInt) :
    s.Tracked files paths c batches.flatten ∧
      ([] ∈ batches → s.exhausted = true ∧ s.buffer = []) ∧ ([] ∉ batches → batches.length ≤ batches.flatten.length) := by
  induction h with
  | start => exact ⟨h0, nofun, fun _ => le_rfl⟩
  | @next batches s s1 before fills ih =>
    obtain ⟨hs, hended, hlength⟩ := ih
    obtain ⟨hs1, hfull⟩ := hs.fills fills hne hserves
    obtain ⟨htracked, hempty⟩ := hs1.emit hfull hbatch hbuffer
    rw [List.flatten_concat]
    refine ⟨htracked, fun hmem => ?_, fun hmem => ?_⟩
    · rcases List.mem_append.mp hmem with hmem | hmem
      · -- after the end there is nothing more
        obtain ⟨hexhausted, hnil⟩ := hended hmem
        have hstop : s.wants = false := by rw [wants, hexhausted, Bool.not_true, Bool.and_false]
        cases fills with
        | full _ =>
          rw [hnil]
          exact ⟨hexhausted, hnil⟩
        | read _ hwants _ _ _ _ => exact absurd (hstop.symm.trans hwants) Bool.false_ne_true
      · exact hempty (List.mem_singleton.mp hmem).symm
    · rw [List.mem_append, not_or] at hmem
      have hpos : 0 < (s1.emit s1.buffer.length []).1.length :=
        List.length_pos_iff.mpr fun h => hmem.2 (List.mem_singleton.mpr h.symm)
      have hbefore := hlength hmem.1
      rw [List.length_append, List.length_append, List.length_singleton]
      omega

/-- A new reader has all records before it. -/
theorem tracked_new (files : String → Option (List (BitVec 8))) {batchSize shuffleBuffer : BitVec 32}
    {seed : R.State} {requireDist loop moveFallback : Bool} {s0 : BatchReader R}
    (hnew : BatchReader.new paths batchSize shuffleBuffer seed requireDist loop moveFallback = .ok s0) :
    paths ≠ [] ∧ s0.settings.loop = loop ∧ s0.settings.batchSize = batchSize ∧
      batchSize.toInt ≤ s0.settings.shuffleBuffer.toInt ∧ s0.Tracked files paths s0.settings [] := by
  rw [BatchReader.new] at hnew
  split at hnew
  · cases hnew
  rename_i hne
  cases hnew
  refine ⟨fun h => hne (by rw [h]; rfl), rfl, rfl, ?_, rfl, .refl _, fun _ => rfl, fun _ => ?_, nofun⟩
  · dsimp only
    split
    · exact le_rfl
    · rename_i hle
      rw [BitVec.slt_iff_toInt_lt] at hle
      exact not_lt.mp hle
  · exact .refl _

/-- Successive calls of `Next` returned these batches, which is all that they should: each call returns; with
looping the end is not reported while there is a record; and without looping each record is returned once, and
the end is reported after all of them and not later. -/
structure Delivers (files : String → Option (List (BitVec 8))) (paths : List String) (s0 : BatchReader R)
    (batches : List (List Record)) (s : BatchReader R) : Prop where
  returns : ∃ batch s' N, ∀ fuel, N ≤ fuel → s.next files fuel = some (batch, s')
  goesOn : s0.settings.loop = true → [] ∈ batches → s0.settings.deliverable files paths = []
  once : s0.settings.loop = false → ∃ rest, (batches.flatten ++ rest).Perm (s0.settings.deliverable files paths)
  all : s0.settings.loop = false → [] ∈ batches → batches.flatten.Perm (s0.settings.deliverable files paths)
  ends : s0.settings.loop = false → [] ∉ batches → batches.length ≤ (s0.settings.deliverable files paths).length

theorem Calls.delivers {s0 : BatchReader R} (h : s0.Calls files (Prompt files) batches s)
    (h0 : s0.Tracked files paths s0.settings []) (hne : paths ≠ [])
    (hserves : s0.settings.loop = true → ∃ p ∈ paths, (shardRecords files p).isSome = true)
    (hbatch : 1 ≤ s0.settings.batchSize.toInt)
    (hbuffer : s0.settings.batchSize.toInt ≤ s0.settings.shuffleBuffer.toInt) :
    s0.Delivers files paths batches s := by
  obtain ⟨htracked, hended, hlength⟩ := h.tracked h0 hne hserves hbatch hbuffer
  refine ⟨?_, fun hloop hmem => ?_, fun hloop => ⟨_, htracked.conserved hloop⟩, fun hloop hmem => ?_,
    fun hloop hmem => ?_⟩
  · refine next_returns (fun hloop => ?_) (fun hnil => hne (List.nil_perm.mp (hnil ▸ htracked.shards))) htracked.fresh
    rw [htracked.settings] at hloop
    exact (hserves hloop).imp fun p hp => ⟨htracked.shards.mem_iff.mpr hp.1, hp.2⟩
  · have hspent := htracked.spent (hended hmem).1
    rw [pending, htracked.settings, if_pos hloop] at hspent
    exact List.nil_perm.mp (hspent ▸ deliverable_perm s0.settings htracked.shards)
  · obtain ⟨hexhausted, hnil⟩ := hended hmem
    have hspent := htracked.spent hexhausted
    have hconserved := htracked.conserved hloop
    rw [pending, htracked.settings, hloop, if_neg Bool.false_ne_true] at hspent
    rwa [hnil, hspent, List.append_nil, List.append_nil] at hconserved
  · have hcount := (htracked.conserved hloop).length_eq
    have hbatches := hlength hmem
    rw [List.length_append] at hcount
    omega

/-- Where the condition fails, `ReadOne` gives up although there is a record. -/
theorem gives_up (hs : s.Ready files) (h : ¬s.Prompt files) : s.pending files ≠ [] ∧
    ∃ s' N, ∀ fuel, N ≤ fuel → s.tryRead files fuel (2 * s.slots.length + 2) = some (none, s') := by
  rw [Prompt, Classical.not_imp] at h
  obtain ⟨out, s', N, hread, hscan, -, -⟩ := tryRead_scan hs (2 * s.slots.length + 2)
  cases out with
  | none => exact ⟨h.1, s', N, hread⟩
  | some r => exact absurd (hscan.isSome_iff.mp rfl) h.2

/-- With looping and nothing to open, the search for a shard never ends. -/
theorem openNext_spins {sh : Shards R} (hne : sh.paths ≠ [])
    (hnone : ∀ p ∈ sh.paths, (shardRecords files p).isSome = false) (fuel : Nat) (rd : RecordReader) :
    openNext files true fuel rd sh = none := by
  induction fuel generalizing rd sh with
  | zero => rfl
  | succ fuel ih =>
    rcases openNext_cases files true sh with ⟨-, hend, -⟩ | ⟨sh0, p, hsh0, hp, hstep⟩
    · exact absurd (hend.resolve_left nofun) hne
    · have hperm := perm_advanced hsh0
      have hunreadable := hnone p (hperm.mem_iff.mp (List.mem_of_getElem? hp))
      rw [shardRecords, Option.isSome_map] at hunreadable
      rw [hstep, Option.isSome_eq_false_iff.mp hunreadable |> Option.isNone_iff_eq_none.mp, Option.elim_none]
      exact ih (fun h => hne (List.nil_perm.mp (h ▸ hperm))) (fun q hq => hnone q (hperm.mem_iff.mp hq)) _

end Delivery

end BatchReader

/-! ## Shards that are worth opening -/

section Full

variable {R : Rng} {files : String → Option (List (BitVec 8))} {paths : List String} {c : Settings} {loop : Bool}
  {sh sh' : Shards R} {fuel : Nat} {rd rd' : RecordReader} {b : Bool}

/-- Each shard that can be opened has a record, and none of its records is passed over. -/
def Settings.Full (c : Settings) (files : String → Option (List (BitVec 8))) (paths : List String) : Prop :=
  ∀ p ∈ paths, ∀ l, shardRecords files p = some l → l ≠ [] ∧ ∀ r ∈ l, (!c.skips r) = true

/-- What is opened is one of the shards, or there are no more. -/
theorem openNext_result (h : openNext files loop fuel rd sh = some (b, rd', sh')) :
    (b = true → ∃ p ∈ sh.paths, shardRecords files p = some rd'.remaining) ∧
      (b = false → sh'.paths.length ≤ sh'.fileIndex ∧ (loop = false ∨ sh'.paths = [])) := by
  induction fuel generalizing rd sh with
  | zero => cases h
  | succ fuel ih =>
    rcases openNext_cases files loop sh with ⟨hle, hloop, hend⟩ | ⟨sh0, p, hsh0, hp, hstep⟩
    · rw [hend] at h
      cases h
      exact ⟨nofun, fun _ => ⟨hle, hloop⟩⟩
    · have hperm := perm_advanced hsh0
      rw [hstep] at h
      cases hopen : (RecordReader.openFile p (files p)).toOption with
      | none =>
        rw [hopen, Option.elim_none] at h
        obtain ⟨hfound, hend⟩ := ih h
        exact ⟨fun hb => (hfound hb).imp fun q hq => ⟨hperm.mem_iff.mp hq.1, hq.2⟩, hend⟩
      | some rd1 =>
        rw [hopen, Option.elim_some] at h
        cases h
        refine ⟨fun _ => ⟨p, hperm.mem_iff.mp (List.mem_of_getElem? hp), ?_⟩, nofun⟩
        rw [shardRecords, hopen]
        rfl

/-- The shards of some paths, in any order and at any place. -/
def Shards.Of (files : String → Option (List (BitVec 8))) (loop : Bool) (paths : List String) (sh : Shards R) : Prop :=
  sh.paths.Perm paths ∧ sh.Serves files loop

/-- Where nothing can be opened there is no looping, nothing is left, and that stays so. -/
theorem supply_none (hserves : sh.Serves files loop) (h : (sh.supply files loop).1 = none) :
    loop = false ∧ sh.rest files = [] ∧ ((sh.supply files loop).2.supply files loop).1 = none := by
  obtain ⟨b, rd, hopen, hsupply⟩ := openNext_supply hserves ⟨none, 0⟩
  have hb : b = false := by
    cases b with
    | false => rfl
    | true => exact nomatch h.symm.trans hsupply
  obtain ⟨hle, hend⟩ := (openNext_result (hopen _ le_rfl)).2 hb
  have hloop : loop = false := by
    cases loop with
    | false => rfl
    | true =>
      obtain ⟨p, hp, -⟩ := hserves rfl
      have hmem := (supply_perm files true sh).mem_iff.mpr hp
      rw [hend.resolve_left nofun] at hmem
      exact absurd hmem List.not_mem_nil
  refine ⟨hloop, ?_, ?_⟩
  · have hbehind : (sh.supply files loop).2.rest files = [] := by
      rw [Shards.rest, List.drop_eq_nil_of_le hle, List.flatMap_nil]
    have hperm := supply_rest files sh
    subst hloop
    rw [h, hbehind] at hperm
    exact List.perm_nil.mp hperm
  · rw [Shards.supply, openNext, if_pos ⟨hle, .inl hloop⟩]
    rfl

theorem supplies_of_full (hfull : c.Full files paths) : Supplies (fun r => !c.skips r)
    (Shards.supply (R := R) files c.loop) (Shards.Of files c.loop paths) where
  keep := fun sh hsh => ⟨(supply_perm files c.loop sh).trans hsh.1, hsh.2.perm (supply_perm files c.loop sh)⟩
  pass := fun sh hsh l hl => by
    obtain ⟨b, rd, hopen, hsupply⟩ := openNext_supply hsh.2 ⟨none, 0⟩
    rw [hsupply] at hl
    split at hl
    · rename_i hb
      obtain ⟨p, hp, hrecords⟩ := (openNext_result (hopen _ le_rfl)).1 hb
      obtain rfl := Option.some.inj hl
      exact hfull p (hsh.1.mem_iff.mp hp) _ hrecords
    · cases hl
  dry := fun sh hsh h => (supply_none hsh.2 h).2.2

namespace BatchReader

variable {s s' s1 : BatchReader R}

/-- The slots are plentiful, once they are there. -/
structure Stocked (files : String → Option (List (BitVec 8))) (paths : List String) (c : Settings)
    (s : BatchReader R) : Prop where
  settings : s.settings = c
  shards : s.shards.Of files c.loop paths
  fresh : s.slots = [] → s.shards.fileIndex = 0
  plenty : s.slots ≠ [] → s.ring.Plentiful (fun r => !c.skips r) (Shards.supply files c.loop)
    (Shards.Of files c.loop paths)

theorem Stocked.passes_eq (hs : s.Stocked files paths c) : s.passes = fun r => !c.skips r := by
  funext r
  rw [passes, hs.settings]

/-- The first slots are plentiful. -/
theorem openSlots_plentiful (hfull : c.Full files paths) (hsh : sh.Of files c.loop paths) {n : Nat} {slots : List Slot}
    (hopen : ∀ fuel, 2 * sh.paths.length + 1 ≤ fuel → openSlots files c.loop fuel n sh = some (slots, sh')) :
    (SlotRing.mk (slots.map Slot.stream) sh').Plentiful (fun r => !c.skips r) (Shards.supply files c.loop)
        (Shards.Of files c.loop paths) ∧
      ((sh.supply files c.loop).1 = none → (sh'.supply files c.loop).1 = none) := by
  have hsupplies := supplies_of_full (R := R) hfull
  induction n generalizing sh slots with
  | zero =>
    obtain ⟨rfl, rfl⟩ := Prod.mk.inj (Option.some.inj (hopen _ le_rfl))
    exact ⟨⟨nofun, nofun, hsh⟩, id⟩
  | succ n ih =>
    obtain ⟨b, rd, hnext, hsupply⟩ := openNext_supply hsh.2 ⟨none, 0⟩
    have hof := hsupplies.keep sh hsh
    have hperm := supply_perm files c.loop sh
    obtain ⟨rest, sh1, hrest, -, -, -⟩ := openSlots_spec hof.2 n
    have hall := hopen _ le_rfl
    rw [openSlots, hnext _ le_rfl, Option.bind_some, hrest _ (by rw [hperm.length_eq])] at hall
    obtain ⟨rfl, rfl⟩ := Prod.mk.inj (Option.some.inj hall)
    obtain ⟨hplenty, hdry⟩ := ih hof hrest
    refine ⟨⟨fun l hl => ?_, fun hnone => ?_, hplenty.source⟩, fun h => hdry (hsupplies.dry sh hsh h)⟩
    · rcases List.mem_cons.mp hl with hl | hl
      · exact (hsupplies.pass sh hsh l (hsupply.trans hl.symm)).2
      · exact hplenty.pass l hl
    · rcases List.mem_cons.mp hnone with hnone | hnone
      · exact hdry (hsupplies.dry sh hsh (hsupply.trans hnone.symm))
      · exact hplenty.dead hnone

/-- Among plentiful slots a record comes within a round. -/
theorem Stocked.prompt (hfull : c.Full files paths) (hs : s.Stocked files paths c) (hne : s.slots ≠ []) :
    s.Prompt files := by
  intro hpending
  have hsupplies := supplies_of_full (R := R) hfull
  have hplenty := hs.plenty hne
  have hlength : s.ring.slots.length = s.slots.length := by rw [ring, List.length_rotate, List.length_map]
  rw [hs.passes_eq, hs.settings]
  refine (hplenty.comes hsupplies ?_).mono (by rw [hlength]; omega)
  by_cases hslot : ∃ a l, some (a :: l) ∈ s.ring.slots
  · exact .inl hslot
  refine .inr ⟨fun h => hne (List.length_eq_zero_iff.mp (by rw [← hlength, h]; rfl)), fun hnone => hpending ?_⟩
  -- there is nothing in the slots, and nothing to be opened
  obtain ⟨hloop, hempty, -⟩ := supply_none hs.shards.2 hnone
  have hflat : s.ring.slots.flatMap (·.getD []) = [] := by
    rw [List.flatMap_eq_nil_iff]
    intro x hx
    match x with
    | none => rfl
    | some [] => rfl
    | some (a :: l) => exact absurd ⟨a, l, hx⟩ hslot
  have hleft : s.ring.left (Shards.rest files) = [] := by
    rw [SlotRing.left, hflat]
    exact hempty
  rw [pending, hs.settings, hloop, if_neg Bool.false_ne_true, left, hleft, List.filter_nil]

/-- The first part of `ReadOne` makes plentiful slots. -/
theorem Stocked.opened {N : Nat} (hfull : c.Full files paths) (hne : paths ≠ []) (hs : s.Stocked files paths c)
    (opened : ∀ fuel, N ≤ fuel → s.openReaders files fuel = some s1) : s1.Stocked files paths c ∧ s1.slots ≠ [] := by
  by_cases hslots : s.slots = []
  · have hshuffled : s.shards.shuffled.paths.Perm s.shards.paths := R.perm _ _
    have hof : s.shards.shuffled.Of files c.loop paths :=
      ⟨hshuffled.trans hs.shards.1, hs.shards.2.perm hshuffled⟩
    obtain ⟨slots, sh, hopen, hlength, -, -⟩ := openSlots_spec hof.2 (min kOpenReaders s.shards.paths.length)
    have hall := opened _ (le_max_left N (2 * s.shards.shuffled.paths.length + 1))
    rw [openReaders, if_pos (List.isEmpty_iff.mpr hslots), hs.settings, hopen _ (le_max_right N _)] at hall
    obtain rfl := Option.some.inj hall
    obtain ⟨hplenty, -⟩ := openSlots_plentiful hfull hof hopen
    have hpos : slots ≠ [] := by
      rintro rfl
      have hpaths : 0 < s.shards.paths.length := by
        rw [hs.shards.1.length_eq]
        exact List.length_pos_iff.mpr hne
      rw [kOpenReaders, List.length_nil] at hlength
      omega
    exact ⟨⟨rfl, hplenty.source, fun h => absurd h hpos, fun _ => hplenty.rotate s.nextSlot⟩, hpos⟩
  · have hall := opened _ le_rfl
    rw [openReaders, if_neg fun h => hslots (List.isEmpty_iff.mp h)] at hall
    obtain rfl := Option.some.inj hall
    exact ⟨hs, hslots⟩

/-- `ReadOne` keeps the slots plentiful. -/
theorem Stocked.read {r : Option Record} {N : Nat} (hfull : c.Full files paths) (hs : s1.Stocked files paths c)
    (hslots : s1.slots ≠ [])
    (read : ∀ fuel, N ≤ fuel → s1.tryRead files fuel (2 * s1.slots.length + 2) = some (r, s')) :
    (s'.received r).Stocked files paths c := by
  have hready : s1.Ready files := ⟨hslots, by rw [hs.settings]; exact hs.shards.2⟩
  obtain ⟨r', t, M, hread, hscan, hready', hkept⟩ := tryRead_scan hready (2 * s1.slots.length + 2)
  obtain ⟨rfl, rfl⟩ : r' = r ∧ t = s' :=
    Prod.mk.inj (Option.some.inj ((hread _ (le_max_right N _)).symm.trans (read _ (le_max_left N _))))
  rw [hs.passes_eq, hs.settings] at hscan
  have hplenty := (hs.plenty hslots).scan (supplies_of_full hfull) hscan
  cases r' with
  | none =>
    exact ⟨hkept.settings.trans hs.settings, hplenty.source, fun h => absurd h hready'.slots, fun _ => hplenty⟩
  | some a =>
    exact ⟨hkept.settings.trans hs.settings, hplenty.source, fun h => absurd h hready'.slots, fun _ => hplenty⟩

theorem Stocked.fills (hfull : c.Full files paths) (hne : paths ≠ []) (hs : s.Stocked files paths c)
    (h : Fills files (fun _ => True) s s') : Fills files (Prompt files) s s' ∧ s'.Stocked files paths c := by
  induction h with
  | full hwants => exact ⟨.full hwants, hs⟩
  | read N hwants opened _ read _ ih =>
    obtain ⟨hs1, hslots⟩ := hs.opened hfull hne opened
    obtain ⟨hrest, hs'⟩ := ih (hs1.read hfull hslots read)
    exact ⟨.read N hwants opened (hs1.prompt hfull hslots) read hrest, hs'⟩

/-- The random numbers for a batch make no difference to the shards. -/
theorem Stocked.emit (hfull : c.Full files paths) (hs : s.Stocked files paths c) :
    (s.emit s.buffer.length []).2.Stocked files paths c := by
  have hsupplies := supplies_of_full (R := R) hfull
  obtain ⟨batch, s', hemit, -, hsettings, hslots, hnext, -, hpaths, hindex, -⟩ :=
    emit_spec s.buffer.length [] s le_rfl
  rw [hemit]
  have hof : s'.shards.Of files c.loop paths := ⟨hpaths ▸ hs.shards.1, fun hloop => hpaths ▸ hs.shards.2 hloop⟩
  refine ⟨hsettings.trans hs.settings, hof, fun h => hindex.trans (hs.fresh (hslots ▸ h)), fun h => ?_⟩
  have hplenty := hs.plenty (hslots ▸ h)
  have hring : s'.ring.slots = s.ring.slots := by rw [BatchReader.ring, BatchReader.ring, hslots, hnext]
  refine ⟨fun l hl => hplenty.pass l (hring ▸ hl), fun hnone => ?_, hof⟩
  -- without looping the shards that are left are the same, and those would have records
  obtain ⟨hloop, hempty, -⟩ := supply_none hs.shards.2 (hplenty.dead (hring ▸ hnone))
  have hrest : s'.shards.rest files = [] := by
    rw [Shards.rest, hpaths, hindex]
    exact hempty
  cases hl : (s'.shards.supply files c.loop).1 with
  | none => exact hl
  | some l =>
    have hperm := supply_rest files s'.shards
    have hne := (hsupplies.pass _ hof l hl).1
    rw [hloop] at hl
    rw [hrest, hl] at hperm
    exact absurd (List.append_eq_nil_iff.mp (List.nil_perm.mp hperm)).1 hne

theorem Stocked.calls {s0 : BatchReader R} {batches : List (List Record)} (hfull : c.Full files paths)
    (hne : paths ≠ []) (h0 : s0.Stocked files paths c) (h : s0.Calls files (fun _ => True) batches s) :
    s0.Calls files (Prompt files) batches s ∧ s.Stocked files paths c := by
  induction h with
  | start => exact ⟨.start, h0⟩
  | @next batches s s1 _ fills ih =>
    obtain ⟨hcalls, hs⟩ := ih
    obtain ⟨hfills, hs1⟩ := hs.fills hfull hne fills
    exact ⟨.next hcalls hfills, hs1.emit hfull⟩

/-- There are runs of any number of calls. -/
theorem Stocked.exists_calls {s0 : BatchReader R} (hfull : c.Full files paths) (hne : paths ≠ [])
    (h0 : s0.Stocked files paths c) (n : Nat) :
    ∃ batches s, s0.Calls files (fun _ => True) batches s ∧ batches.length = n := by
  induction n with
  | zero => exact ⟨[], s0, .start, rfl⟩
  | succ n ih =>
    obtain ⟨batches, s, hcalls, hlength⟩ := ih
    obtain ⟨-, hs⟩ := h0.calls hfull hne hcalls
    obtain ⟨s1, hfills⟩ := exists_fills (by rw [hs.settings]; exact hs.shards.2)
      (fun hnil => hne (List.nil_perm.mp (hnil ▸ hs.shards.1))) hs.fresh
    exact ⟨_, _, .next hcalls hfills, by rw [List.length_append, hlength, List.length_singleton]⟩

end BatchReader

end Full

/-! ## New readers -/

namespace BatchReader

section New

variable {R : Rng} {files : String → Option (List (BitVec 8))} {paths : List String} {batchSize shuffleBuffer : BitVec 32}
  {seed : R.State} {requireDist loop moveFallback : Bool} {s0 s : BatchReader R} {batches : List (List Record)}

theorem stocked_new (hnew : BatchReader.new paths batchSize shuffleBuffer seed requireDist loop moveFallback = .ok s0)
    (hserves : loop = true → ∃ p ∈ paths, (shardRecords files p).isSome = true) :
    s0.Stocked files paths s0.settings := by
  rw [BatchReader.new] at hnew
  split at hnew
  · cases hnew
  · cases hnew
    exact ⟨rfl, ⟨.refl _, hserves⟩, fun _ => rfl, fun h => absurd rfl h⟩

/-- If no shard is empty and no record is passed over, all is delivered. -/
theorem delivered_of_full (hnew : BatchReader.new paths batchSize shuffleBuffer seed requireDist loop moveFallback = .ok s0)
    (hbatch : 1 ≤ batchSize.toInt)
    (hserves : loop = true → ∃ p ∈ paths, (shardRecords files p).isSome = true)
    (hfull : s0.settings.Full files paths) (h : s0.Calls files (fun _ => True) batches s) :
    s0.Delivers files paths batches s := by
  obtain ⟨hne, hloop, hsize, hbuffer, h0⟩ := tracked_new files hnew
  obtain ⟨hcalls, -⟩ := (stocked_new hnew hserves).calls hfull hne h
  exact hcalls.delivers h0 hne (hloop ▸ hserves) (hsize ▸ hbatch) (hsize ▸ hbuffer)

end New

/-! ## A record that is dropped -/

/-- Shuffles that leave the order, or reverse it. -/
def inOrder : Rng := ⟨Unit, fun _ => (0, ()), fun l g => (l, g), fun _ _ => .refl _⟩

def reversed : Rng := ⟨Unit, fun _ => (0, ()), fun l g => (l.reverse, g), fun l _ => l.reverse_perm⟩

/-- A record of a game, and one with a distribution. -/
def gameRecord : Record := ⟨⟨.replicate 32 0#8, 0#16, 5#16, 1#16, 1#8, 0#8, 0#16, 0#16⟩, []⟩

def distRecord : Record := ⟨⟨.replicate 32 0#8, 0#16, 5#16, 1#16, 1#8, 1#8, 1#16, 0#16⟩, [⟨5#16, 1#16⟩]⟩

/-- An empty shard, and one with six records of games before the one with a distribution. -/
def twoShards (path : String) : Option (List (BitVec 8)) :=
  some (openedHeader ++ (if path = "empty" then [] else List.replicate 6 gameRecord ++ [distRecord]).flatMap Record.bytes)

/-- A reader of the second shard that takes all records, again and again. -/
def fullReader : BatchReader inOrder :=
  ⟨⟨1, 1, false, true, false⟩, ⟨["full"], 0, 0, ()⟩, [], 0, 0, [], false⟩

theorem shardRecords_full : shardRecords twoShards "full" = some (List.replicate 6 gameRecord ++ [distRecord]) := by
  decide +kernel

/-- Two readers for records with a distribution. -/
def readerOf (R : Rng) (seed : R.State) : BatchReader R :=
  ⟨⟨1, 1, true, false, false⟩, ⟨["empty", "full"], 0, 0, seed⟩, [], 0, 0, [], false⟩

end BatchReader

end Shogi.Pyext
