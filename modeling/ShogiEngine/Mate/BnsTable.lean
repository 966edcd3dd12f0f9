import ShogiEngine.Mate.BnsNumbers

/-!
# The transposition table of the branch number search

The clustered table of `mate/bns.h`, keyed by a position hash and a ply. Entries of earlier
searches are left in place and told apart by their generation.

## Main definitions

- `BnsTT.newSearch`, `probe`, `probeOrStore`, `store`: the source's functions
- `BnsTT.Sane`: no entry is from a later generation
- `BnsTT.Holds`: a property of all live entries

## Main results

- `Sane.holds_newSearch`: after `NewSearch` no entry is live
- `holds_store`, `holds_probeOrStore`: a new entry is the only change
-/

namespace Shogi

open Bns

/-- `BnsTTEntry`. -/
structure BnsTTEntry where
  tag : BitVec 64
  abn : Nat
  obn : Nat
  deriving DecidableEq

namespace BnsTTEntry

/-- An entry of memory that `calloc` returns. -/
def cleared : BnsTTEntry := ⟨0#64, 0, 0⟩

/-- `final_result()`. -/
def finalResult (e : BnsTTEntry) : Bool := e.abn = 0 || e.obn = 0

/-- The numbers of the entry. -/
def view (e : BnsTTEntry) : ChildView := ⟨e.abn, e.obn⟩

/-- `GenerationOf`. -/
def generationOf (e : BnsTTEntry) : BitVec 16 := e.tag.setWidth 16

end BnsTTEntry

/-- `VictimPolicy`. -/
inductive VictimPolicy
  | effortPriority
  | alwaysFirst
  deriving DecidableEq, Repr

/-- `BnsTT`; no table is allocated while `numEntries` is zero. -/
structure BnsTT where
  table : Nat → BnsTTEntry
  effort : Nat → Nat
  numEntries : Nat
  mask : BitVec 64
  gen : BitVec 16
  victimPolicy : VictimPolicy
  useEffort : Bool

namespace BnsTT

/-- A table before the first `Resize`. -/
def new : BnsTT := ⟨fun _ => .cleared, fun _ => 0, 0, 0#64, 0#16, .alwaysFirst, false⟩

/-- `set_victim_policy`. -/
def setVictimPolicy (t : BnsTT) (p : VictimPolicy) : BnsTT :=
  { t with victimPolicy := p, useEffort := if p = .effortPriority then true else t.useEffort }

/-- `set_use_effort`. -/
def setUseEffort (t : BnsTT) (v : Bool) : BnsTT :=
  { t with useEffort := v || t.victimPolicy = .effortPriority }

/-- `Resize`. -/
def resize (t : BnsTT) (mb : Nat) : BnsTT :=
  let n := doubled (mb * 2 ^ 20 % 2 ^ 64 / 20) 64 (2 ^ 12)
  if n ≠ t.numEntries then
    { t with
      table := fun _ => .cleared
      effort := fun _ => 0
      numEntries := n
      mask := BitVec.ofNat 64 (n - 1) &&& ~~~1#64
      gen := 0#16 }
  else t

/-- `NewSearch`. -/
def newSearch (t : BnsTT) : BnsTT :=
  let t := if t.numEntries = 0 then t.resize 4 else t
  -- the whole table is cleared once the generation wraps around
  if t.gen + 1#16 = 0#16 then { t with table := fun _ => .cleared, gen := 1#16 }
  else { t with gen := t.gen + 1#16 }

/-- `Mix`. -/
def mix (hash : BitVec 64) (ply : Nat) : BitVec 64 :=
  hash + BitVec.ofNat 64 ply * 0x9E3779B97F4A7C15#64

/-- `IndexOf`. -/
def indexOf (t : BnsTT) (mixed : BitVec 64) : Nat := (mixed &&& t.mask).toNat

/-- `TagOf`. -/
def tagOf (t : BnsTT) (mixed : BitVec 64) : BitVec 64 :=
  (mixed &&& 0xffffffffffff0000#64) ||| t.gen.setWidth 64

/-- The loop of `Probe` over the slots of the cluster. -/
def probeAmong (t : BnsTT) (tag : BitVec 64) : List Nat → Option Nat
  | [] => none
  | x :: rest =>
    if (t.table x).tag = tag then some x
    else if (t.table x).generationOf ≠ t.gen then none
    else t.probeAmong tag rest

/-- The slots of a cluster, whose size is `kClusterSize`. -/
def cluster (t : BnsTT) (mixed : BitVec 64) : List Nat :=
  (List.range 2).map fun i => t.indexOf mixed + i

/-- `Probe`: the index of the matching live entry. -/
def probe (t : BnsTT) (hash : BitVec 64) (ply : Nat) : Option Nat :=
  t.probeAmong (t.tagOf (mix hash ply)) (t.cluster (mix hash ply))

/-- Where a key belongs: the entry that has it, or the one that it is to replace. -/
inductive Slot
  | hit (x : Nat)
  | replace (x : Nat)

/-- `v_better`: entry `x` is the better victim. -/
def vBetter (t : BnsTT) (victim x : Nat) : Bool :=
  (t.table victim).finalResult && !(t.table x).finalResult ||
    (t.table victim).finalResult == (t.table x).finalResult && decide (t.effort x < t.effort victim)

/-- The loop over the slots that `ProbeOrStore` and `Store` have in common. -/
def findSlot (t : BnsTT) (tag : BitVec 64) (first : Nat) : List Nat → Option Nat → Slot
  | [], victim => .replace (victim.getD first)
  | x :: rest, victim =>
    if (t.table x).tag = tag then .hit x
    else if (t.table x).generationOf ≠ t.gen then .replace x
    else
      match victim with
      | none => t.findSlot tag first rest (some x)
      | some v =>
        if t.victimPolicy = .alwaysFirst then t.findSlot tag first rest (some v)
        else t.findSlot tag first rest (some (if t.vBetter v x then x else v))

/-- A fresh entry in slot `x`. -/
def replaceSlot (t : BnsTT) (x : Nat) (tag : BitVec 64) : BnsTT :=
  { t with
    table := Function.update t.table x ⟨tag, 1, 1⟩
    effort := if t.useEffort then Function.update t.effort x 0 else t.effort }

/-- `ProbeOrStore`: the entry and whether it was inserted. -/
def probeOrStore (t : BnsTT) (hash : BitVec 64) (ply : Nat) : BnsTT × Nat × Bool :=
  let mixed := mix hash ply
  match t.findSlot (t.tagOf mixed) (t.indexOf mixed) (t.cluster mixed) none with
  | .hit x => (t, x, false)
  | .replace x => (t.replaceSlot x (t.tagOf mixed), x, true)

/-- `Store`: the entry to write to for this key. -/
def store (t : BnsTT) (hash : BitVec 64) (ply : Nat) (cached : Option Nat) : BnsTT × Nat :=
  let mixed := mix hash ply
  if cached.any fun x => (t.table x).tag = t.tagOf mixed then (t, cached.getD 0)
  else
    match t.findSlot (t.tagOf mixed) (t.indexOf mixed) (t.cluster mixed) none with
    | .hit x => (t, x)
    | .replace x => (t.replaceSlot x (t.tagOf mixed), x)

/-- An assignment to the numbers of entry `x`. -/
def setView (t : BnsTT) (x : Nat) (v : ChildView) : BnsTT :=
  { t with table := Function.update t.table x ⟨(t.table x).tag, v.abn, v.obn⟩ }

/-- `effort()`. -/
def effortOf (t : BnsTT) (x : Nat) : Nat := if t.useEffort then t.effort x else 0

/-- `increment_effort`. -/
def incrementEffort (t : BnsTT) (x : Nat) : BnsTT :=
  if t.effort x ≠ 2 ^ 32 - 1 then { t with effort := Function.update t.effort x (t.effort x + 1) }
  else t

/-! ## Live entries -/

/-- No entry is from a later generation. -/
def Sane (t : BnsTT) : Prop := ∀ x, (t.table x).generationOf.toNat ≤ t.gen.toNat

/-- All live entries have the property. -/
def Holds (t : BnsTT) (P : BnsTTEntry → Prop) : Prop :=
  ∀ x, (t.table x).generationOf = t.gen → P (t.table x)

section Live

variable {t : BnsTT} {P : BnsTTEntry → Prop} {hash mixed tag : BitVec 64} {ply x : Nat}
  {v : ChildView} {cached : Option Nat}

/-- A tag of this search is of this generation. -/
theorem generationOf_tagOf {abn obn : Nat} :
    (⟨t.tagOf mixed, abn, obn⟩ : BnsTTEntry).generationOf = t.gen := by
  rw [BnsTTEntry.generationOf, tagOf]
  apply BitVec.eq_of_getLsbD_eq
  intro i hi
  have hmask : (0xffffffffffff0000#64).getLsbD i = false := by
    revert i
    decide
  simp only [BitVec.getLsbD_setWidth, BitVec.getLsbD_or, BitVec.getLsbD_and, hmask, Bool.and_false,
    Bool.false_or, hi, decide_true, Bool.true_and]
  rw [decide_eq_true (show i < 64 by omega), Bool.true_and]

theorem live_of_tag (h : (t.table x).tag = t.tagOf mixed) : (t.table x).generationOf = t.gen := by
  rw [BnsTTEntry.generationOf, h]
  exact @generationOf_tagOf t mixed 0 0

theorem tag_of_probeAmong {l : List Nat} (h : t.probeAmong tag l = some x) :
    (t.table x).tag = tag := by
  induction l with
  | nil => cases h
  | cons y rest ih =>
    rw [probeAmong] at h
    split at h
    · rename_i htag
      exact Option.some.inj h ▸ htag
    · split at h
      · cases h
      · exact ih h

/-- What `Probe` finds has the tag of the key. -/
theorem tag_of_probe (h : t.probe hash ply = some x) : (t.table x).tag = t.tagOf (mix hash ply) :=
  tag_of_probeAmong h

theorem Holds.probe (hP : t.Holds P) (h : t.probe hash ply = some x) : P (t.table x) :=
  hP x (live_of_tag (tag_of_probe h))

theorem holds_replaceSlot (hP : t.Holds P) (hnew : P ⟨t.tagOf mixed, 1, 1⟩) :
    (t.replaceSlot x (t.tagOf mixed)).Holds P := by
  intro y hy
  simp only [replaceSlot, Function.update_apply] at hy ⊢
  split at hy
  · rename_i h
    rw [if_pos h]
    exact hnew
  · rename_i h
    rw [if_neg h]
    exact hP y hy

theorem sane_replaceSlot (h : t.Sane) : (t.replaceSlot x (t.tagOf mixed)).Sane := by
  intro y
  simp only [replaceSlot, Function.update_apply]
  split
  · rw [generationOf_tagOf]
  · exact h y

/-- `ProbeOrStore` leaves the table alone or makes a fresh entry. -/
theorem probeOrStore_cases : (t.probeOrStore hash ply).1 = t ∨
    ∃ x, (t.probeOrStore hash ply).1 = t.replaceSlot x (t.tagOf (mix hash ply)) := by
  simp only [probeOrStore]
  cases t.findSlot (t.tagOf (mix hash ply)) (t.indexOf (mix hash ply)) (t.cluster (mix hash ply))
    none with
  | hit x => exact Or.inl rfl
  | replace x => exact Or.inr ⟨x, rfl⟩

theorem store_cases : (t.store hash ply cached).1 = t ∨
    ∃ x, (t.store hash ply cached).1 = t.replaceSlot x (t.tagOf (mix hash ply)) := by
  simp only [store]
  split
  · exact Or.inl rfl
  · cases t.findSlot (t.tagOf (mix hash ply)) (t.indexOf (mix hash ply)) (t.cluster (mix hash ply))
      none with
    | hit x => exact Or.inl rfl
    | replace x => exact Or.inr ⟨x, rfl⟩

theorem holds_probeOrStore (hP : t.Holds P) (hnew : ∀ tag, P ⟨tag, 1, 1⟩) :
    (t.probeOrStore hash ply).1.Holds P := by
  obtain h | ⟨x, h⟩ := @probeOrStore_cases t hash ply
  · rw [h]
    exact hP
  · rw [h]
    exact holds_replaceSlot hP (hnew _)

theorem holds_store (hP : t.Holds P) (hnew : ∀ tag, P ⟨tag, 1, 1⟩) :
    (t.store hash ply cached).1.Holds P := by
  obtain h | ⟨x, h⟩ := @store_cases t hash ply cached
  · rw [h]
    exact hP
  · rw [h]
    exact holds_replaceSlot hP (hnew _)

theorem Sane.probeOrStore (h : t.Sane) : (t.probeOrStore hash ply).1.Sane := by
  obtain he | ⟨x, he⟩ := @probeOrStore_cases t hash ply
  · rw [he]
    exact h
  · rw [he]
    exact sane_replaceSlot h

theorem Sane.store (h : t.Sane) : (t.store hash ply cached).1.Sane := by
  obtain he | ⟨x, he⟩ := @store_cases t hash ply cached
  · rw [he]
    exact h
  · rw [he]
    exact sane_replaceSlot h

theorem holds_setView (hP : t.Holds P) (hnew : ∀ tag, P ⟨tag, v.abn, v.obn⟩) :
    (t.setView x v).Holds P := by
  intro y hy
  simp only [setView, Function.update_apply] at hy ⊢
  split at hy
  · rename_i h
    rw [if_pos h]
    exact hnew _
  · rename_i h
    rw [if_neg h]
    exact hP y hy

theorem Sane.setView (h : t.Sane) : (t.setView x v).Sane := by
  intro y
  simp only [BnsTT.setView, Function.update_apply]
  split
  · rename_i hy
    exact h x
  · exact h y

theorem Holds.incrementEffort (hP : t.Holds P) : (t.incrementEffort x).Holds P := by
  rw [BnsTT.incrementEffort]
  split
  · exact hP
  · exact hP

theorem Sane.incrementEffort (h : t.Sane) : (t.incrementEffort x).Sane := by
  rw [BnsTT.incrementEffort]
  split
  · exact h
  · exact h

theorem sane_new : new.Sane := fun _ => le_rfl

theorem Sane.resize (h : t.Sane) (mb : Nat) : (t.resize mb).Sane := by
  rw [BnsTT.resize]
  split
  · exact fun _ => le_rfl
  · exact h

theorem Sane.newSearch (h : t.Sane) : t.newSearch.Sane := by
  rw [BnsTT.newSearch]
  have hs : (if t.numEntries = 0 then t.resize 4 else t).Sane := by
    split
    · exact h.resize 4
    · exact h
  generalize (if t.numEntries = 0 then t.resize 4 else t) = s at hs
  split
  · exact fun _ => Nat.zero_le _
  · rename_i hwrap
    intro x
    have hle := hs x
    have hlt := s.gen.isLt
    rw [BitVec.toNat_eq, BitVec.toNat_add] at hwrap
    refine hle.trans ?_
    simp only [BitVec.toNat_add, BitVec.toNat_ofNat] at hwrap ⊢
    omega

/-- After `NewSearch` no entry is live. -/
theorem Sane.holds_newSearch (h : t.Sane) : t.newSearch.Holds P := by
  rw [BnsTT.newSearch]
  have hs : (if t.numEntries = 0 then t.resize 4 else t).Sane := by
    split
    · exact h.resize 4
    · exact h
  generalize (if t.numEntries = 0 then t.resize 4 else t) = s at hs
  intro x hx
  exfalso
  split at hx
  · exact absurd hx (show (0#16 : BitVec 16) ≠ 1#16 by decide)
  · rename_i hwrap
    have hle := hs x
    have hlt := s.gen.isLt
    have hgen : (s.table x).generationOf = s.gen + 1#16 := hx
    rw [hgen] at hle
    rw [BitVec.toNat_eq, BitVec.toNat_add] at hwrap
    simp only [BitVec.toNat_add, BitVec.toNat_ofNat] at hwrap hle
    omega

end Live

end BnsTT

end Shogi
