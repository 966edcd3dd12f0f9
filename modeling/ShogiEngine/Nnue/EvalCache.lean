import ShogiEngine.Library.Binary32
import ShogiEngine.Library.Threads
import Mathlib.Tactic.NormNum
import Mathlib.Tactic.Positivity

/-!
# The evaluation cache

`EvalCache`, shared by all search threads without a lock: every access to a table slot or a counter
is one atomic step. Values are quantised to 16 bits in single precision.

## Main definitions

- `pack`: the word that `Store` writes
- `threads`: the steps of `Store` and `Probe`
- `Hit`: what a successful probe has to do with the stores before it

## Main results

- `toNat_pack`: the three fields of a word
- `abs_dequantise_sub_le`: how far a value comes back from what was stored
- `hit_of_reach`: every successful probe returns one earlier store
-/

namespace Shogi.EvalCache

/-! ## Quantisation -/

/-- The values of `float` that are not NaN. -/
inductive Single
  | negInf
  | finite (x : ℚ)
  | posInf

/-- `x < 0.0f ? 0.0f : (x > 1.0f ? 1.0f : x)`. -/
def Single.clamp : Single → ℚ
  | .negInf => 0
  | .finite x => if x < 0 then 0 else if 1 < x then 1 else x
  | .posInf => 1

/-- `static_cast<uint64_t>(x * 65535.0f + 0.5f)` of the clamped value. -/
def q (x : Single) : BitVec 64 :=
  .ofNat 64 ⌊Binary32.f32 (Binary32.f32 (x.clamp * 65535) + 1 / 2)⌋.toNat

/-- `static_cast<float>(v) / 65535.0f` of a 16-bit field. -/
def dequantise (v : BitVec 64) : ℚ := Binary32.f32 (v.toNat / 65535)

/-- The upper half of the key; 0 marks an empty slot. -/
def tag (key : BitVec 64) : BitVec 32 :=
  let t := (key >>> 32).setWidth 32
  if t = 0 then 1 else t

/-- The word that `Store` writes. -/
def pack (key : BitVec 64) (win draw : Single) : BitVec 64 :=
  ((tag key).setWidth 64 <<< 32) ||| (q win <<< 16) ||| q draw

theorem tag_ne_zero (key : BitVec 64) : tag key ≠ 0 := by
  rw [tag]
  split
  · decide
  · assumption

theorem Single.clamp_nonneg (x : Single) : 0 ≤ x.clamp := by
  cases x with
  | negInf => exact le_rfl
  | posInf => exact zero_le_one
  | finite x =>
    rw [clamp]
    split_ifs with h0 h1
    · exact le_rfl
    · exact zero_le_one
    · exact not_lt.mp h0

theorem Single.clamp_le_one (x : Single) : x.clamp ≤ 1 := by
  cases x with
  | negInf => exact zero_le_one
  | posInf => exact le_rfl
  | finite x =>
    rw [clamp]
    split_ifs with h0 h1
    · exact zero_le_one
    · exact le_rfl
    · exact not_lt.mp h1

/-- The number that is truncated: `65535 x + 1/2` up to two roundings. -/
theorem abs_scaled_sub_le (x : Single) :
    |Binary32.f32 (Binary32.f32 (x.clamp * 65535) + 1 / 2) - (x.clamp * 65535 + 1 / 2)| ≤
      1 / 256 := by
  have h0 := x.clamp_nonneg
  have h1 := x.clamp_le_one
  have hfirst : |Binary32.f32 (x.clamp * 65535) - x.clamp * 65535| ≤ 1 / 512 := by
    refine (Binary32.abs_f32_sub_le (e := 16) ?_ (by norm_num)).trans (by norm_num)
    rw [abs_of_nonneg (by positivity)]
    norm_num
    linarith
  rw [abs_le] at hfirst
  have hsecond : |Binary32.f32 (Binary32.f32 (x.clamp * 65535) + 1 / 2) -
      (Binary32.f32 (x.clamp * 65535) + 1 / 2)| ≤ 1 / 512 := by
    refine (Binary32.abs_f32_sub_le (e := 16) ?_ (by norm_num)).trans (by norm_num)
    rw [abs_lt]
    norm_num
    constructor <;> linarith
  rw [abs_le] at hsecond ⊢
  constructor <;> linarith

/-- The quantised value is the nearest of the 65536 levels, up to the two roundings. -/
theorem q_spec (x : Single) : (q x).toNat < 2 ^ 16 ∧
    |((q x).toNat : ℚ) - x.clamp * 65535| ≤ 1 / 2 + 1 / 256 := by
  have h0 := x.clamp_nonneg
  have h1 := x.clamp_le_one
  have hscaled := abs_scaled_sub_le x
  set z := Binary32.f32 (Binary32.f32 (x.clamp * 65535) + 1 / 2) with hz
  rw [abs_le] at hscaled
  have hz0 : 0 ≤ z := by linarith
  have hfloor := Int.floor_le z
  have hlt := Int.lt_floor_add_one z
  have hnonneg : 0 ≤ ⌊z⌋ := Int.floor_nonneg.mpr hz0
  have hless : ⌊z⌋ < 65536 := by
    rw [Int.floor_lt]
    push_cast
    linarith
  have hnat : (q x).toNat = ⌊z⌋.toNat := by
    rw [q, ← hz, BitVec.toNat_ofNat, Nat.mod_eq_of_lt]
    omega
  have hcast : ((⌊z⌋.toNat : ℕ) : ℚ) = (⌊z⌋ : ℚ) := by
    exact_mod_cast congrArg (Int.cast (R := ℚ)) (Int.toNat_of_nonneg hnonneg)
  rw [hnat, hcast, abs_le]
  refine ⟨by omega, ?_, ?_⟩ <;> linarith

/-- A quantised value comes back within half a step and three roundings. -/
theorem abs_dequantise_sub_le (x : Single) :
    |dequantise (q x) - x.clamp| ≤ (1 / 2 + 1 / 128) / 65535 := by
  obtain ⟨hlt, hq⟩ := q_spec x
  rw [dequantise]
  have hle : ((q x).toNat : ℚ) ≤ 65535 := by
    have : (q x).toNat ≤ 65535 := by omega
    exact_mod_cast this
  have hround : |Binary32.f32 ((q x).toNat / 65535) - (q x).toNat / 65535| ≤ 1 / 2 ^ 24 := by
    refine (Binary32.abs_f32_sub_le (e := 1) ?_ (by norm_num)).trans (by norm_num)
    rw [abs_of_nonneg (by positivity), div_lt_iff₀ (by norm_num)]
    norm_num
    linarith
  rw [abs_le] at hround hq ⊢
  have hsplit : ((q x).toNat : ℚ) / 65535 * 65535 = (q x).toNat := by norm_num
  constructor <;> linarith

/-! ## The word -/

theorem toNat_and_low (v : BitVec 64) : (v &&& 0xFFFF).toNat = v.toNat % 2 ^ 16 := by
  rw [BitVec.toNat_and]
  exact Nat.and_two_pow_sub_one_eq_mod v.toNat 16

/-- The three fields of a word. -/
theorem toNat_pack (key : BitVec 64) (win draw : Single) :
    (pack key win draw).toNat =
      (tag key).toNat * 2 ^ 32 + (q win).toNat * 2 ^ 16 + (q draw).toNat := by
  have hw := (q_spec win).1
  have hd := (q_spec draw).1
  have ht := (tag key).isLt
  have h1 : (tag key).toNat <<< 32 ||| (q win).toNat <<< 16 =
      (tag key).toNat <<< 32 + (q win).toNat <<< 16 := by
    refine (Nat.shiftLeft_add_eq_or_of_lt ?_ _).symm
    rw [Nat.shiftLeft_eq]
    omega
  have h2 : ((tag key).toNat <<< 16 + (q win).toNat) <<< 16 ||| (q draw).toNat =
      ((tag key).toNat <<< 16 + (q win).toNat) <<< 16 + (q draw).toNat :=
    (Nat.shiftLeft_add_eq_or_of_lt hd _).symm
  have h3 : (tag key).toNat <<< 32 + (q win).toNat <<< 16 =
      ((tag key).toNat <<< 16 + (q win).toNat) <<< 16 := by
    simp only [Nat.shiftLeft_eq]
    omega
  rw [pack, BitVec.toNat_or, BitVec.toNat_or, BitVec.toNat_shiftLeft, BitVec.toNat_shiftLeft,
    BitVec.toNat_setWidth, Nat.mod_eq_of_lt (show (tag key).toNat < 2 ^ 64 by omega),
    Nat.mod_eq_of_lt (show (tag key).toNat <<< 32 < 2 ^ 64 by rw [Nat.shiftLeft_eq]; omega),
    Nat.mod_eq_of_lt (show (q win).toNat <<< 16 < 2 ^ 64 by rw [Nat.shiftLeft_eq]; omega),
    h1, h3, h2]
  simp only [Nat.shiftLeft_eq]
  omega

section Fields

variable (key : BitVec 64) (win draw : Single)

theorem pack_tag : (pack key win draw >>> 32).setWidth 32 = tag key := by
  have hw := (q_spec win).1
  have hd := (q_spec draw).1
  apply BitVec.eq_of_toNat_eq
  rw [BitVec.toNat_setWidth, BitVec.toNat_ushiftRight, toNat_pack, Nat.shiftRight_eq_div_pow]
  have ht := (tag key).isLt
  omega

theorem pack_win : (pack key win draw >>> 16) &&& 0xFFFF = q win := by
  have hw := (q_spec win).1
  have hd := (q_spec draw).1
  apply BitVec.eq_of_toNat_eq
  rw [toNat_and_low, BitVec.toNat_ushiftRight, toNat_pack, Nat.shiftRight_eq_div_pow]
  omega

theorem pack_draw : pack key win draw &&& 0xFFFF = q draw := by
  have hd := (q_spec draw).1
  apply BitVec.eq_of_toNat_eq
  rw [toNat_and_low, toNat_pack]
  omega

end Fields

/-! ## The steps -/

/-- The arguments of one call of `Store`. -/
structure Stored where
  key : BitVec 64
  win : Single
  draw : Single

/-- The word it writes. -/
def Stored.word (s : Stored) : BitVec 64 := pack s.key s.win s.draw

/-- The table and the counters. `log` records the calls of `Store` in the order in which they wrote
their slots, newest first. -/
structure Cache where
  capacity : Nat
  table : Nat → BitVec 64
  lookups : BitVec 64
  hits : BitVec 64
  occupied : BitVec 64
  log : List Stored

/-- `while (cap * 2 <= n) cap *= 2`. -/
def grow (n cap : Nat) : Nat :=
  if _h : 0 < cap ∧ cap * 2 ≤ n then grow n (cap * 2) else cap
termination_by n - cap
decreasing_by omega

/-- `resize`. -/
def resize (mb : Nat) : Cache :=
  let n := mb * 1024 * 1024 % 2 ^ 64 / 8
  ⟨if n = 0 then 0 else grow n 1, fun _ => 0, 0, 0, 0, []⟩

/-- `key & (capacity_ - 1)`. -/
def slot (capacity : Nat) (key : BitVec 64) : Nat := key.toNat &&& (capacity - 1)

/-- Where a thread is. `seen` is the log at the time of the probe's load. -/
inductive Pc
  | idle
  | storeLoad (s : Stored)
  | storeOccupy (s : Stored)
  | storeWrite (s : Stored)
  | probeLookup (key : BitVec 64)
  | probeLoad (key : BitVec 64)
  | probeHit (key v : BitVec 64) (seen : List Stored)
  | probeDone (key : BitVec 64) (result : Option (ℚ × ℚ)) (seen : List Stored)

namespace Cache

/-- The slot of a key written. -/
def write (c : Cache) (s : Stored) : Cache :=
  { c with table := Function.update c.table (slot c.capacity s.key) s.word, log := s :: c.log }

/-- The last store into slot `n`. -/
def last (capacity : Nat) (log : List Stored) (n : Nat) : Option Stored :=
  log.find? fun s => slot capacity s.key = n

/-- One atomic step of a thread. -/
inductive Act : Cache → Pc → Cache → Pc → Prop
  | callStore (c s) : Act c .idle c (if c.capacity = 0 then .idle else .storeLoad s)
  | storeLoad (c s) : Act c (.storeLoad s) c
      (if c.table (slot c.capacity s.key) = 0 then .storeOccupy s else .storeWrite s)
  | storeOccupy (c s) : Act c (.storeOccupy s) { c with occupied := c.occupied + 1 } (.storeWrite s)
  | storeWrite (c s) : Act c (.storeWrite s) (c.write s) .idle
  | callProbe (c key) : Act c .idle c
      (if c.capacity = 0 then .probeDone key none c.log else .probeLookup key)
  | probeLookup (c key) :
      Act c (.probeLookup key) { c with lookups := c.lookups + 1 } (.probeLoad key)
  | probeLoad (c key) : Act c (.probeLoad key) c
      (if (c.table (slot c.capacity key) >>> 32).setWidth 32 = tag key then
        .probeHit key (c.table (slot c.capacity key)) c.log
      else .probeDone key none c.log)
  | probeHit (c key v seen) : Act c (.probeHit key v seen) { c with hits := c.hits + 1 }
      (.probeDone key (some (dequantise ((v >>> 16) &&& 0xFFFF), dequantise (v &&& 0xFFFF))) seen)
  | retProbe (c key r seen) : Act c (.probeDone key r seen) c .idle

end Cache

/-- Any number of threads that call `Store` and `Probe`. -/
def threads (ι : Type) : Threads ι Cache Pc where
  act _ := Cache.Act

/-- No thread is in a call yet. -/
def start (ι : Type) (mb : Nat) : Threads.Config ι Cache Pc := ⟨resize mb, fun _ => .idle⟩

theorem grow_pos {n cap : Nat} (h : 0 < cap) : 0 < grow n cap := by
  fun_induction grow n cap with
  | case1 cap _ ih => exact ih (by omega)
  | case2 cap _ => exact h

/-- `resize` leaves a cache enabled when there is room for an entry. -/
theorem resize_capacity_pos {mb : Nat} (h : mb * 1024 * 1024 % 2 ^ 64 / 8 ≠ 0) :
    0 < (resize mb).capacity := by
  change 0 < if mb * 1024 * 1024 % 2 ^ 64 / 8 = 0 then 0 else grow _ 1
  rw [if_neg h]
  exact grow_pos one_pos

/-- The table access is within bounds. -/
theorem slot_lt {capacity : Nat} (h : 0 < capacity) (key : BitVec 64) :
    slot capacity key < capacity := by
  have hle := Nat.and_le_right (n := key.toNat) (m := capacity - 1)
  rw [slot]
  omega

/-! ## Hits -/

/-- A probe of `key` that returned `win` and `draw` read the word of the store `s`: `steps` is how
many quantisation steps a value may be off. -/
structure Hit (steps : ℚ) (capacity : Nat) (key : BitVec 64) (win draw : ℚ) (seen : List Stored)
    (s : Stored) : Prop where
  last_eq : Cache.last capacity seen (slot capacity key) = some s
  tag_eq : tag s.key = tag key
  win_eq : win = dequantise (q s.win)
  draw_eq : draw = dequantise (q s.draw)
  win_near : |win - s.win.clamp| ≤ steps / 65535
  draw_near : |draw - s.draw.clamp| ≤ steps / 65535
  latest : (∀ s' ∈ seen, slot capacity s'.key = slot capacity key → tag s'.key = tag key →
    s'.key = key) → seen.find? (fun s' => s'.key = key) = some s

/-- Every probe that is about to return a value returns one of the stores made before its load. -/
def ReturnsStore {ι : Type} (steps : ℚ) (c : Threads.Config ι Cache Pc) : Prop :=
  ∀ i key win draw seen, c.own i = .probeDone key (some (win, draw)) seen →
    seen <:+ c.shared.log ∧ ∃ s, Hit steps c.shared.capacity key win draw seen s

/-- A word of the table is what the last store into its slot wrote. -/
def Cache.Logged (c : Cache) : Prop :=
  ∀ n, c.table n = ((last c.capacity c.log n).map Stored.word).getD 0

/-- What a thread remembers of a load. -/
def Cache.Remembered (c : Cache) : Pc → Prop
  | .probeHit key v seen => seen <:+ c.log ∧ (v >>> 32).setWidth 32 = tag key ∧
      v = ((last c.capacity seen (slot c.capacity key)).map Stored.word).getD 0
  | .probeDone key (some r) seen =>
      seen <:+ c.log ∧ ∃ s, Hit (1 / 2 + 1 / 128) c.capacity key r.1 r.2 seen s
  | _ => True

variable {c c' : Cache} {pc pc' : Pc} {capacity : Nat} {key : BitVec 64} {s : Stored}
  {seen log : List Stored}

theorem last_cons_self : Cache.last capacity (s :: log) (slot capacity s.key) = some s := by
  rw [Cache.last, List.find?_cons_of_pos (by simp)]

theorem last_cons_of_ne {n : Nat} (h : n ≠ slot capacity s.key) :
    Cache.last capacity (s :: log) n = Cache.last capacity log n := by
  rw [Cache.last, List.find?_cons_of_neg (by simpa using h.symm), ← Cache.last]

/-- When no other key shares slot and tag, the last store into the slot is the last one of the
key. -/
theorem find?_key_of_last (hlast : Cache.last capacity seen (slot capacity key) = some s)
    (htag : tag s.key = tag key)
    (hone : ∀ s' ∈ seen, slot capacity s'.key = slot capacity key → tag s'.key = tag key →
      s'.key = key) :
    seen.find? (fun s' => s'.key = key) = some s := by
  obtain ⟨hslot, before, after, rfl, hbefore⟩ := List.find?_eq_some_iff_append.mp hlast
  have hkey : s.key = key := hone s (by simp) (by simpa using hslot) htag
  rw [List.find?_eq_some_iff_append]
  refine ⟨by simpa using hkey, before, after, rfl, fun s' hs' => ?_⟩
  have hne := hbefore s' hs'
  simp only [Bool.not_eq_true', decide_eq_false_iff_not] at hne ⊢
  exact fun h => hne (h ▸ rfl)

/-- A word with the tag of the key comes from a store, and reads back as its pair. -/
theorem hit_of_remembered
    (htag : (((Cache.last capacity seen (slot capacity key)).map Stored.word).getD 0 >>> 32).setWidth
      32 = tag key) :
    ∃ s, Hit (1 / 2 + 1 / 128) capacity key
      (dequantise ((((Cache.last capacity seen (slot capacity key)).map Stored.word).getD 0 >>> 16)
        &&& 0xFFFF))
      (dequantise (((Cache.last capacity seen (slot capacity key)).map Stored.word).getD 0 &&&
        0xFFFF)) seen s := by
  cases hlast : Cache.last capacity seen (slot capacity key) with
  | none =>
    -- the empty word has no key's tag
    rw [hlast] at htag
    exact absurd htag.symm (tag_ne_zero key)
  | some s =>
    rw [hlast, Option.map_some, Option.getD_some, Stored.word, pack_tag] at htag
    rw [Option.map_some, Option.getD_some, Stored.word, pack_win, pack_draw]
    exact ⟨s, hlast, htag, rfl, rfl, abs_dequantise_sub_le _, abs_dequantise_sub_le _,
      find?_key_of_last hlast htag⟩

/-- No step changes the capacity or forgets a store. -/
theorem Cache.Act.grows (h : Act c pc c' pc') : c'.capacity = c.capacity ∧ c.log <:+ c'.log := by
  cases h
  case storeWrite s => exact ⟨rfl, List.suffix_cons s c.log⟩
  all_goals exact ⟨rfl, List.suffix_rfl⟩

theorem Cache.Remembered.mono (hcap : c'.capacity = c.capacity) (hlog : c.log <:+ c'.log)
    (h : c.Remembered pc) : c'.Remembered pc := by
  unfold Cache.Remembered at h ⊢
  split
  · exact ⟨h.1.trans hlog, by rw [hcap]; exact h.2⟩
  · exact ⟨h.1.trans hlog, by rw [hcap]; exact h.2⟩
  · trivial

theorem Cache.Logged.write (h : c.Logged) (s : Stored) : (c.write s).Logged := by
  intro n
  change Function.update c.table (slot c.capacity s.key) s.word n =
    ((last c.capacity (s :: c.log) n).map Stored.word).getD 0
  by_cases hn : n = slot c.capacity s.key
  · subst hn
    rw [Function.update_self, last_cons_self, Option.map_some, Option.getD_some]
  · rw [Function.update_of_ne hn, last_cons_of_ne hn, h n]

/-- One step of a thread. -/
theorem Cache.Act.keeps (h : Act c pc c' pc') (hc : c.Logged) (hpc : c.Remembered pc) :
    c'.Logged ∧ c'.Remembered pc' := by
  cases h with
  | callStore s =>
    refine ⟨hc, ?_⟩
    split_ifs <;> trivial
  | storeLoad s =>
    refine ⟨hc, ?_⟩
    split_ifs <;> trivial
  | storeOccupy s => exact ⟨hc, trivial⟩
  | storeWrite s => exact ⟨hc.write s, trivial⟩
  | callProbe key =>
    refine ⟨hc, ?_⟩
    split_ifs <;> trivial
  | probeLookup key => exact ⟨hc, trivial⟩
  | probeLoad key =>
    refine ⟨hc, ?_⟩
    split_ifs with htag
    · exact ⟨List.suffix_rfl, htag, hc _⟩
    · trivial
  | probeHit key v seen =>
    obtain ⟨hsuffix, htag, hv⟩ := hpc
    subst hv
    exact ⟨hc, hsuffix, hit_of_remembered htag⟩
  | retProbe key r seen => exact ⟨hc, trivial⟩

/-- In every interleaving every successful probe returns the quantised pair of one store made before
its load, the last one into its slot, each value within half a step and the roundings. -/
theorem hit_of_reach {ι : Type} [DecidableEq ι] (mb : Nat) {c : Threads.Config ι Cache Pc}
    (h : (threads ι).Reach (start ι mb) c) : ReturnsStore (1 / 2 + 1 / 128) c := by
  have hinv : c.shared.Logged ∧ ∀ i, c.shared.Remembered (c.own i) := by
    refine h.thread_invariant (I := Cache.Logged) (J := fun _ => Cache.Remembered) ?_ ?_ ?_
    · exact ⟨fun _ => rfl, fun _ => trivial⟩
    · intro i s t s' t' hs ht hact
      exact Cache.Act.keeps hact hs ht
    · intro i j s t s' t' x hs ht hx hne hact
      exact hx.mono (Cache.Act.grows hact).1 (Cache.Act.grows hact).2
  intro i key win draw seen hi
  have hremembered := hinv.2 i
  rw [hi] at hremembered
  exact hremembered

/-! ## The rounding counts -/

theorem q_257 : q (.finite (257 / 512)) = 32896 := by
  have hclamp : (Single.finite (257 / 512)).clamp = 257 / 512 := by norm_num [Single.clamp]
  have hfirst : Binary32.f32 (257 / 512 * 65535) = 65791 / 2 := by
    rw [Binary32.f32, Binary32.ulp_eq (e := 15) (by norm_num [abs_of_pos])
      (by norm_num [abs_of_pos]) (by norm_num)]
    norm_num [Binary32.roundEven]
  have hsecond : Binary32.f32 (65791 / 2 + 1 / 2) = 32896 := by
    rw [Binary32.f32, Binary32.ulp_eq (e := 15) (by norm_num [abs_of_pos])
      (by norm_num [abs_of_pos]) (by norm_num)]
    norm_num [Binary32.roundEven]
  rw [q, hclamp, hfirst, hsecond, show ⌊(32896 : ℚ)⌋ = 32896 by norm_num]
  rfl

theorem dequantise_32896 : dequantise 32896 = 8421505 / 2 ^ 24 := by
  rw [dequantise, show ((32896 : BitVec 64).toNat : ℚ) = 32896 by rfl, Binary32.f32,
    Binary32.ulp_eq (e := -1) (by norm_num [abs_of_pos]) (by norm_num [abs_of_pos]) (by norm_num)]
  norm_num [Binary32.roundEven]

/-- A thread that stores into a new table and then probes for the same key gets the pair back. -/
theorem exists_store_probe {mb : Nat} (hmb : (resize mb).capacity ≠ 0) (s : Stored) :
    ∃ c, (threads Unit).Reach (start Unit mb) c ∧
      c.own () = .probeDone s.key (some (dequantise (q s.win), dequantise (q s.draw))) [s] := by
  have hstart : (threads Unit).Reach (start Unit mb) (start Unit mb) := .start
  obtain ⟨c₁, h₁, hs₁, ho₁⟩ := hstart.act (i := ()) rfl rfl (Cache.Act.callStore (resize mb) s)
  rw [if_neg hmb] at ho₁
  obtain ⟨c₂, h₂, hs₂, ho₂⟩ := h₁.act hs₁ ho₁ (Cache.Act.storeLoad (resize mb) s)
  rw [if_pos (show (resize mb).table _ = 0 from rfl)] at ho₂
  obtain ⟨c₃, h₃, hs₃, ho₃⟩ := h₂.act hs₂ ho₂ (Cache.Act.storeOccupy (resize mb) s)
  obtain ⟨c₄, h₄, hs₄, ho₄⟩ := h₃.act hs₃ ho₃ (Cache.Act.storeWrite _ s)
  have hcap : c₄.shared.capacity ≠ 0 := by
    rw [hs₄]
    exact hmb
  obtain ⟨c₅, h₅, hs₅, ho₅⟩ := h₄.act rfl ho₄ (Cache.Act.callProbe c₄.shared s.key)
  rw [if_neg hcap] at ho₅
  obtain ⟨c₆, h₆, hs₆, ho₆⟩ := h₅.act (hs₅.trans hs₄) ho₅ (Cache.Act.probeLookup _ s.key)
  obtain ⟨c₇, h₇, hs₇, ho₇⟩ := h₆.act hs₆ ho₆ (Cache.Act.probeLoad _ s.key)
  have hword : c₆.shared.table (slot c₆.shared.capacity s.key) = s.word := by
    rw [hs₆]
    exact Function.update_self ..
  rw [← hs₆, hword, Stored.word, if_pos (pack_tag ..)] at ho₇
  obtain ⟨c₈, h₈, -, ho₈⟩ := h₇.act hs₇ ho₇ (Cache.Act.probeHit ..)
  rw [pack_win, pack_draw, hs₆] at ho₈
  exact ⟨c₈, h₈, ho₈⟩

theorem hit_of_reach_257 : ∃ c, (threads Unit).Reach (start Unit 1) c ∧
    c.own () = .probeDone 0 (some (8421505 / 2 ^ 24, dequantise (q (.finite 0))))
      [⟨0, .finite (257 / 512), .finite 0⟩] ∧ ReturnsStore (1 / 2 + 1 / 128) c := by
  have hmb : (resize 1).capacity ≠ 0 := (resize_capacity_pos (by norm_num)).ne'
  obtain ⟨c, hc, hown⟩ := exists_store_probe hmb ⟨0, .finite (257 / 512), .finite 0⟩
  rw [q_257, dequantise_32896] at hown
  exact ⟨c, hc, hown, hit_of_reach 1 hc⟩

/-- Half a step is not enough: `257 / 512` comes back `129 / 2 ^ 24` off. -/
theorem not_halfStep : ¬ ∀ mb (c : Threads.Config Unit Cache Pc),
    (threads Unit).Reach (start Unit mb) c → ReturnsStore (1 / 2) c := by
  intro hall
  have hmb : (resize 1).capacity ≠ 0 := (resize_capacity_pos (by norm_num)).ne'
  obtain ⟨c, hc, hown⟩ := exists_store_probe hmb ⟨0, .finite (257 / 512), .finite 0⟩
  obtain ⟨-, s, hit⟩ := hall 1 c hc () _ _ _ _ hown
  have hs : s = ⟨0, .finite (257 / 512), .finite 0⟩ := by
    have hmem := List.mem_of_find?_eq_some hit.last_eq
    simpa using hmem
  have hnear := hit.win_near
  rw [hs, q_257, dequantise_32896] at hnear
  norm_num [Single.clamp, abs_of_pos] at hnear

end Shogi.EvalCache
