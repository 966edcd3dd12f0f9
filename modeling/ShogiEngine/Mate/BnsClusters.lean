import ShogiEngine.Mate.BnsTable

/-!
# Clusters of the transposition table

Why `Probe` may stop at the first stale slot of a cluster: in every cluster the entries of the current
search come first, and no two of them have the same tag.

## Main definitions

- `Clustered`: the order of the entries in the clusters
- `History`, `Call`: sequences of calls, with the search that wrote each entry

## Main results

- `findSlot_cluster`: where the loop over a cluster ends
- `lookups_of_run`: what the calls return in every run, once a search has begun
-/

namespace Shogi

open Bns

namespace BnsTT

/-! ## Clusters -/

/-- The entry belongs to the current search. -/
def Live (t : BnsTT) (x : Nat) : Prop := (t.table x).generationOf = t.gen

/-- The live entries of every cluster come first and have different tags. -/
structure Clustered (t : BnsTT) : Prop where
  first : ∀ i, t.Live (2 * i + 1) → t.Live (2 * i)
  distinct : ∀ i, t.Live (2 * i) → t.Live (2 * i + 1) →
    (t.table (2 * i)).tag ≠ (t.table (2 * i + 1)).tag

/-- The mask is a multiple of the size of a cluster. -/
def Aligned (t : BnsTT) : Prop := t.mask.getLsbD 0 = false

/-- The cluster of the key is full of live entries with other tags. -/
def Full (t : BnsTT) (mixed : BitVec 64) : Prop :=
  ∀ x ∈ t.cluster mixed, t.Live x ∧ (t.table x).tag ≠ t.tagOf mixed

/-- Where the loop over the cluster of a key ends: at the entry with the tag, at the first stale slot,
or at a victim in a full cluster. -/
inductive Found (t : BnsTT) (mixed : BitVec 64) : Slot → Prop
  | hit (x : Nat) (mem : x ∈ t.cluster mixed) (tag : (t.table x).tag = t.tagOf mixed) :
      Found t mixed (.hit x)
  | stale (x : Nat) (mem : x ∈ t.cluster mixed) (stale : ¬ t.Live x)
      (before : ∀ y ∈ t.cluster mixed, y < x → t.Live y ∧ (t.table y).tag ≠ t.tagOf mixed) :
      Found t mixed (.replace x)
  | victim (x : Nat) (mem : x ∈ t.cluster mixed) (full : t.Full mixed) : Found t mixed (.replace x)

section Clusters

variable {t : BnsTT} {mixed tag hash : BitVec 64} {ply x y : Nat} {cached : Option Nat}

theorem indexOf_even (h : t.Aligned) : ∃ i, t.indexOf mixed = 2 * i := by
  have hbit : (mixed &&& t.mask).toNat.testBit 0 = false := by
    rw [← BitVec.getLsbD, BitVec.getLsbD_and, h, Bool.and_false]
  rw [Nat.testBit_zero, decide_eq_false_iff_not] at hbit
  exact ⟨(mixed &&& t.mask).toNat / 2, by rw [indexOf]; omega⟩

theorem mem_cluster : x ∈ t.cluster mixed ↔ x = t.indexOf mixed ∨ x = t.indexOf mixed + 1 := by
  rw [cluster, List.mem_map]
  constructor
  · rintro ⟨i, hi, rfl⟩
    have := List.mem_range.mp hi
    omega
  · rintro (rfl | rfl)
    · exact ⟨0, by decide, rfl⟩
    · exact ⟨1, by decide, rfl⟩

theorem cluster_eq : t.cluster mixed = [t.indexOf mixed, t.indexOf mixed + 1] := rfl

/-- The loop over a cluster. -/
theorem findSlot_cluster : Found t mixed
    (t.findSlot (t.tagOf mixed) (t.indexOf mixed) (t.cluster mixed) none) := by
  have hmem0 : t.indexOf mixed ∈ t.cluster mixed := mem_cluster.mpr (Or.inl rfl)
  have hmem1 : t.indexOf mixed + 1 ∈ t.cluster mixed := mem_cluster.mpr (Or.inr rfl)
  have hlist := @cluster_eq t mixed
  rw [hlist, findSlot]
  by_cases htag0 : (t.table (t.indexOf mixed)).tag = t.tagOf mixed
  · rw [if_pos htag0]
    exact .hit _ hmem0 htag0
  rw [if_neg htag0]
  by_cases hlive0 : t.Live (t.indexOf mixed)
  · rw [if_neg (show ¬ (t.table (t.indexOf mixed)).generationOf ≠ t.gen from not_not.mpr hlive0)]
    rw [findSlot]
    by_cases htag1 : (t.table (t.indexOf mixed + 1)).tag = t.tagOf mixed
    · rw [if_pos htag1]
      exact .hit _ hmem1 htag1
    rw [if_neg htag1]
    by_cases hlive1 : t.Live (t.indexOf mixed + 1)
    · rw [if_neg (show ¬ (t.table (t.indexOf mixed + 1)).generationOf ≠ t.gen from
        not_not.mpr hlive1)]
      have hfull : t.Full mixed := by
        intro x hx
        obtain rfl | rfl := mem_cluster.mp hx
        · exact ⟨hlive0, htag0⟩
        · exact ⟨hlive1, htag1⟩
      -- both policies choose one of the two entries
      simp only [findSlot, Option.getD_some]
      split
      · exact .victim _ hmem0 hfull
      · split
        · exact .victim _ hmem1 hfull
        · exact .victim _ hmem0 hfull
    · rw [if_pos (show (t.table (t.indexOf mixed + 1)).generationOf ≠ t.gen from hlive1)]
      refine .stale _ hmem1 hlive1 fun y hy hlt => ?_
      obtain rfl | rfl := mem_cluster.mp hy
      · exact ⟨hlive0, htag0⟩
      · exact absurd hlt (lt_irrefl _)
  · rw [if_pos (show (t.table (t.indexOf mixed)).generationOf ≠ t.gen from hlive0)]
    refine .stale _ hmem0 hlive0 fun y hy hlt => ?_
    obtain rfl | rfl := mem_cluster.mp hy
    · exact absurd hlt (lt_irrefl _)
    · omega

theorem mem_of_probeAmong {l : List Nat} (h : t.probeAmong tag l = some x) : x ∈ l := by
  induction l with
  | nil => cases h
  | cons y rest ih =>
    rw [probeAmong] at h
    split at h
    · exact List.mem_cons.mpr (Or.inl (Option.some.inj h).symm)
    · split at h
      · cases h
      · exact List.mem_cons_of_mem _ (ih h)

/-- `Probe` finds an entry with the tag if there is one in the cluster. -/
theorem isSome_probe (haligned : t.Aligned) (h : t.Clustered) (hx : x ∈ t.cluster (mix hash ply))
    (htag : (t.table x).tag = t.tagOf (mix hash ply)) : (t.probe hash ply).isSome = true := by
  obtain ⟨i, hi⟩ := @indexOf_even t (mix hash ply) haligned
  have hlive : t.Live x := live_of_tag htag
  rw [mem_cluster, hi] at hx
  rw [probe, cluster_eq, hi, probeAmong]
  split
  · rfl
  · rename_i hne
    -- the entry is the second one, and the first one is live as well
    obtain rfl | rfl := hx
    · exact absurd htag hne
    · rw [if_neg (show ¬ (t.table (2 * i)).generationOf ≠ t.gen from not_not.mpr (h.first i hlive)),
        probeAmong, if_pos htag]
      rfl

/-! ## Entries that are written -/

theorem table_replaceSlot : (t.replaceSlot x tag).table y = if y = x then ⟨tag, 1, 1⟩ else t.table y :=
  Function.update_apply t.table x _ y

theorem live_replaceSlot : (t.replaceSlot x (t.tagOf mixed)).Live y ↔ y = x ∨ t.Live y := by
  rw [Live, table_replaceSlot]
  by_cases hy : y = x
  · rw [if_pos hy]
    exact iff_of_true generationOf_tagOf (Or.inl hy)
  · rw [if_neg hy, or_iff_right hy]
    exact Iff.rfl

theorem tag_replaceSlot : ((t.replaceSlot x tag).table y).tag = if y = x then tag else (t.table y).tag := by
  rw [table_replaceSlot]
  split <;> rfl

/-- What is replaced: the entries before it are live and have other tags, and if it is live itself the
cluster is full. -/
theorem Found.replaced (h : Found t mixed (.replace x)) : x ∈ t.cluster mixed ∧
    (∀ y ∈ t.cluster mixed, y < x → t.Live y ∧ (t.table y).tag ≠ t.tagOf mixed) ∧
    (t.Live x → t.Full mixed) := by
  cases h with
  | stale _ mem stale before => exact ⟨mem, before, fun hlive => absurd hlive stale⟩
  | victim _ mem full => exact ⟨mem, fun y hy _ => full y hy, fun _ => full⟩

/-- Writing where the loop over the cluster ends keeps the clusters in order. -/
theorem clustered_replaceSlot (haligned : t.Aligned) (h : t.Clustered)
    (hfound : Found t mixed (.replace x)) : (t.replaceSlot x (t.tagOf mixed)).Clustered := by
  obtain ⟨j, hj⟩ := @indexOf_even t mixed haligned
  obtain ⟨hmem, hbefore, hfull⟩ := hfound.replaced
  rw [mem_cluster, hj] at hmem
  have hlow : 2 * j ∈ t.cluster mixed := mem_cluster.mpr (Or.inl hj.symm)
  have hhigh : 2 * j + 1 ∈ t.cluster mixed := mem_cluster.mpr (Or.inr (by rw [hj]))
  constructor
  · intro i hlive
    rw [live_replaceSlot] at hlive ⊢
    obtain hx | hlive := hlive
    · obtain rfl : i = j := by omega
      exact Or.inr (hbefore _ hlow (by omega)).1
    · exact Or.inr (h.first i hlive)
  · intro i hleft hright
    rw [live_replaceSlot] at hleft hright
    rw [tag_replaceSlot, tag_replaceSlot]
    by_cases hx : 2 * i = x
    · -- the second entry is live, so the first one was a victim
      obtain rfl : i = j := by omega
      have hlive : t.Live (2 * i + 1) := hright.resolve_left (by omega)
      rw [if_pos hx, if_neg (by omega)]
      exact (hfull (hx ▸ h.first i hlive) _ hhigh).2.symm
    · rw [if_neg hx]
      by_cases hx' : 2 * i + 1 = x
      · obtain rfl : i = j := by omega
        rw [if_pos hx']
        exact (hbefore _ hlow (by omega)).2
      · rw [if_neg hx']
        exact h.distinct i (hleft.resolve_left hx) (hright.resolve_left hx')

/-- The order depends on the tags and the generation alone. -/
theorem Clustered.congr {t' : BnsTT} (h : t.Clustered) (htag : ∀ x, (t'.table x).tag = (t.table x).tag)
    (hgen : t'.gen = t.gen) : t'.Clustered := by
  have hlive : ∀ x, t'.Live x ↔ t.Live x := by
    intro x
    rw [Live, Live, BnsTTEntry.generationOf, htag x, hgen, BnsTTEntry.generationOf]
  constructor
  · intro i hi
    rw [hlive] at hi ⊢
    exact h.first i hi
  · intro i hleft hright
    rw [hlive] at hleft hright
    rw [htag, htag]
    exact h.distinct i hleft hright

/-- What `ProbeOrStore` and `Store` return for a key: an entry `x` of the table `t'` that has the tag,
with no other entry changed, and a live entry replaced only in a full cluster. -/
structure Stored (t : BnsTT) (mixed : BitVec 64) (t' : BnsTT) (x : Nat) : Prop where
  tag : (t'.table x).tag = t.tagOf mixed
  others : ∀ y, y ≠ x → t'.table y = t.table y
  evicts : t.Live x → t'.table x ≠ t.table x → x ∈ t.cluster mixed ∧ t.Full mixed

/-- The table is left alone if the entry has the tag, and otherwise written where the loop ends. -/
inductive Answer (t : BnsTT) (mixed : BitVec 64) : BnsTT → Nat → Prop
  | same (x : Nat) (tag : (t.table x).tag = t.tagOf mixed) : Answer t mixed t x
  | fresh (x : Nat) (found : Found t mixed (.replace x)) :
      Answer t mixed (t.replaceSlot x (t.tagOf mixed)) x

theorem answer_probeOrStore :
    Answer t (mix hash ply) (t.probeOrStore hash ply).1 (t.probeOrStore hash ply).2.1 := by
  rw [probeOrStore]
  have hfound := @findSlot_cluster t (mix hash ply)
  cases hslot : t.findSlot (t.tagOf (mix hash ply)) (t.indexOf (mix hash ply))
      (t.cluster (mix hash ply)) none with
  | hit x =>
    rw [hslot] at hfound
    cases hfound with
    | hit _ _ tag => exact .same x tag
  | replace x => exact .fresh x (hslot ▸ hfound)

theorem answer_store :
    Answer t (mix hash ply) (t.store hash ply cached).1 (t.store hash ply cached).2 := by
  rw [store]
  by_cases hcached : cached.any fun x => decide ((t.table x).tag = t.tagOf (mix hash ply))
  · rw [if_pos hcached]
    cases cached with
    | none => cases hcached
    | some x => exact .same x (of_decide_eq_true hcached)
  · rw [if_neg hcached]
    have hfound := @findSlot_cluster t (mix hash ply)
    cases hslot : t.findSlot (t.tagOf (mix hash ply)) (t.indexOf (mix hash ply))
        (t.cluster (mix hash ply)) none with
    | hit x =>
      rw [hslot] at hfound
      cases hfound with
      | hit _ _ tag => exact .same x tag
    | replace x => exact .fresh x (hslot ▸ hfound)

theorem Answer.stored {t' : BnsTT} (h : Answer t mixed t' x) : Stored t mixed t' x := by
  cases h with
  | same _ tag => exact ⟨tag, fun _ _ => rfl, fun _ hne => absurd rfl hne⟩
  | fresh _ found =>
    refine ⟨?_, fun y hy => ?_, fun hlive _ => ⟨found.replaced.1, found.replaced.2.2 hlive⟩⟩
    · rw [tag_replaceSlot, if_pos rfl]
    · rw [table_replaceSlot, if_neg hy]

end Clusters

/-! ## Histories -/

/-- A table with what has been done to it: the number of searches so far, whether one of them has begun
since the table was allocated, and in which of them each entry was written. -/
structure History where
  table : BnsTT
  searches : Nat
  begun : Bool
  writtenIn : Nat → Option Nat

/-- The calls, with what callers do to the entries that they get. -/
inductive Call
  | resize (mb : Nat)
  | newSearch
  | probe (hash : BitVec 64) (ply : Nat)
  | probeOrStore (hash : BitVec 64) (ply : Nat)
  | store (hash : BitVec 64) (ply : Nat) (cached : Option Nat)
  | setView (x : Nat) (v : ChildView)
  | incrementEffort (x : Nat)
  | setVictimPolicy (p : VictimPolicy)
  | setUseEffort (v : Bool)

namespace History

/-- Before the first call. -/
def start : History := ⟨new, 0, false, fun _ => none⟩

/-- A call has returned entry `x` of table `t` for a key; it is new if it had another tag before. -/
def returned (s : History) (t : BnsTT) (x : Nat) (mixed : BitVec 64) : History :=
  { s with
    table := t
    writtenIn := if (s.table.table x).tag = s.table.tagOf mixed then s.writtenIn
      else Function.update s.writtenIn x (some s.searches) }

/-- One call; an access outside of the table is undefined. -/
def call (s : History) : Call → Option History
  | .resize mb =>
    let t := s.table.resize mb
    some { s with table := t, begun := s.begun && t.numEntries == s.table.numEntries }
  | .newSearch =>
    some { s with table := s.table.newSearch, searches := s.searches + 1, begun := true }
  | .probe _ _ => if s.table.numEntries = 0 then none else some s
  | .probeOrStore hash ply =>
    if s.table.numEntries = 0 then none
    else
      let r := s.table.probeOrStore hash ply
      some (s.returned r.1 r.2.1 (mix hash ply))
  | .store hash ply cached =>
    if s.table.numEntries = 0 ∨ cached.any (fun x => s.table.numEntries ≤ x) then none
    else
      let r := s.table.store hash ply cached
      some (s.returned r.1 r.2 (mix hash ply))
  | .setView x v =>
    if s.table.numEntries ≤ x then none else some { s with table := s.table.setView x v }
  | .incrementEffort x =>
    if s.table.numEntries ≤ x then none else some { s with table := s.table.incrementEffort x }
  | .setVictimPolicy p => some { s with table := s.table.setVictimPolicy p }
  | .setUseEffort v => some { s with table := s.table.setUseEffort v }

/-- What every run of calls keeps. -/
structure Sound (s : History) : Prop where
  aligned : s.table.Aligned
  sane : s.table.Sane
  clustered : s.begun = true → s.table.Clustered
  current : s.begun = true → ∀ x, s.table.Live x → s.writtenIn x = some s.searches

/-- What the calls return. -/
structure Lookups (s : History) : Prop where
  clustered : s.table.Clustered
  probe : ∀ hash ply, (s.table.probe hash ply).isSome = true ↔
    ∃ x ∈ s.table.cluster (mix hash ply),
      s.table.Live x ∧ (s.table.table x).tag = s.table.tagOf (mix hash ply)
  found : ∀ hash ply x, s.table.probe hash ply = some x → x ∈ s.table.cluster (mix hash ply) ∧
    s.table.Live x ∧ (s.table.table x).tag = s.table.tagOf (mix hash ply) ∧
    s.writtenIn x = some s.searches
  probeOrStore : ∀ hash ply, Stored s.table (mix hash ply) (s.table.probeOrStore hash ply).1
    (s.table.probeOrStore hash ply).2.1
  store : ∀ hash ply cached, Stored s.table (mix hash ply) (s.table.store hash ply cached).1
    (s.table.store hash ply cached).2

section Run

variable {s s' : History} {mixed : BitVec 64} {t : BnsTT} {x : Nat}

theorem sound_start : start.Sound :=
  ⟨rfl, sane_new, fun h => Bool.noConfusion h, fun h => Bool.noConfusion h⟩

theorem aligned_resize (h : t.Aligned) (mb : Nat) : (t.resize mb).Aligned := by
  rw [resize]
  split
  · rw [Aligned, BitVec.getLsbD_and]
    exact Bool.and_false _
  · exact h

theorem aligned_newSearch (h : t.Aligned) : t.newSearch.Aligned := by
  rw [newSearch]
  have hs : (if t.numEntries = 0 then t.resize 4 else t).Aligned := by
    split
    · exact aligned_resize h 4
    · exact h
  generalize (if t.numEntries = 0 then t.resize 4 else t) = u at hs
  split
  · exact hs
  · exact hs

/-- A table is kept if its size does not change. -/
theorem resize_eq {mb : Nat} (h : (t.resize mb).numEntries = t.numEntries) : t.resize mb = t := by
  rw [resize] at h ⊢
  split at h
  · rename_i hne
    exact absurd h hne
  · rename_i heq
    rw [if_neg heq]

theorem not_live_newSearch (h : t.Sane) : ¬ t.newSearch.Live x :=
  fun hlive => @Sane.holds_newSearch t (fun _ => False) h x hlive

/-- The entry that is returned keeps the record. -/
theorem Sound.returned (h : s.Sound) (hsane : t.Sane) (hanswer : Answer s.table mixed t x) :
    (s.returned t x mixed).Sound := by
  cases hanswer with
  | same _ tag =>
    rw [History.returned, if_pos tag]
    exact h
  | fresh _ found =>
    have htag : (s.table.table x).tag ≠ s.table.tagOf mixed := by
      intro htag
      exact (found.replaced.2.2 (live_of_tag htag) x found.replaced.1).2 htag
    rw [History.returned, if_neg htag]
    refine ⟨h.aligned, hsane, fun hb => clustered_replaceSlot h.aligned (h.clustered hb) found,
      fun hb y hy => ?_⟩
    rw [live_replaceSlot] at hy
    by_cases hyx : y = x
    · rw [hyx]
      exact Function.update_self x _ _
    · exact (Function.update_of_ne hyx _ _).trans (h.current hb y (hy.resolve_left hyx))

/-- Changes of numbers, efforts and settings keep the record. -/
theorem Sound.congr (h : s.Sound) (hsane : t.Sane) (hmask : t.mask = s.table.mask)
    (htag : ∀ x, (t.table x).tag = (s.table.table x).tag) (hgen : t.gen = s.table.gen) :
    ({ s with table := t } : History).Sound := by
  refine ⟨?_, hsane, fun hb => (h.clustered hb).congr htag hgen, fun hb x hx => h.current hb x ?_⟩
  · rw [Aligned, hmask]
    exact h.aligned
  · rw [Live, BnsTTEntry.generationOf, htag, hgen] at hx
    exact hx

theorem Sound.call {c : Call} (h : s.Sound) (hc : s.call c = some s') : s'.Sound := by
  cases c with
  | resize mb =>
    obtain rfl := Option.some.inj hc
    have hkept : (s.begun && (s.table.resize mb).numEntries == s.table.numEntries) = true →
        s.table.resize mb = s.table ∧ s.begun = true := by
      intro hb
      rw [Bool.and_eq_true, beq_iff_eq] at hb
      exact ⟨resize_eq hb.2, hb.1⟩
    refine ⟨aligned_resize h.aligned mb, h.sane.resize mb, fun hb => ?_, fun hb => ?_⟩
    · obtain ⟨heq, hbegun⟩ := hkept hb
      show (s.table.resize mb).Clustered
      rw [heq]
      exact h.clustered hbegun
    · obtain ⟨heq, hbegun⟩ := hkept hb
      show ∀ x, (s.table.resize mb).Live x → s.writtenIn x = some s.searches
      rw [heq]
      exact h.current hbegun
  | newSearch =>
    obtain rfl := Option.some.inj hc
    exact ⟨aligned_newSearch h.aligned, h.sane.newSearch,
      fun _ => ⟨fun _ hlive => absurd hlive (not_live_newSearch h.sane),
        fun _ hlive => absurd hlive (not_live_newSearch h.sane)⟩,
      fun _ _ hlive => absurd hlive (not_live_newSearch h.sane)⟩
  | probe hash ply =>
    rw [History.call] at hc
    split at hc
    · cases hc
    · exact Option.some.inj hc ▸ h
  | probeOrStore hash ply =>
    rw [History.call] at hc
    split at hc
    · cases hc
    · exact Option.some.inj hc ▸ h.returned h.sane.probeOrStore answer_probeOrStore
  | store hash ply cached =>
    rw [History.call] at hc
    split at hc
    · cases hc
    · exact Option.some.inj hc ▸ h.returned h.sane.store answer_store
  | setView x v =>
    rw [History.call] at hc
    split at hc
    · cases hc
    · refine Option.some.inj hc ▸ h.congr h.sane.setView rfl (fun y => ?_) rfl
      simp only [BnsTT.setView, Function.update_apply]
      split
      · rename_i hy
        rw [hy]
      · rfl
  | incrementEffort x =>
    rw [History.call] at hc
    split at hc
    · cases hc
    · refine Option.some.inj hc ▸ h.congr h.sane.incrementEffort ?_ (fun y => ?_) ?_
      · rw [BnsTT.incrementEffort]
        split <;> rfl
      · rw [BnsTT.incrementEffort]
        split <;> rfl
      · rw [BnsTT.incrementEffort]
        split <;> rfl
  | setVictimPolicy p => exact Option.some.inj hc ▸ h.congr h.sane rfl (fun _ => rfl) rfl
  | setUseEffort v => exact Option.some.inj hc ▸ h.congr h.sane rfl (fun _ => rfl) rfl

theorem Sound.run (calls : List Call) (h : s.Sound) (hrun : calls.foldlM History.call s = some s') :
    s'.Sound := by
  induction calls generalizing s with
  | nil =>
    rw [List.foldlM_nil] at hrun
    exact Option.some.inj hrun ▸ h
  | cons c calls ih =>
    rw [List.foldlM_cons] at hrun
    obtain ⟨u, hu, hrest⟩ := Option.bind_eq_some_iff.mp hrun
    exact ih (h.call hu) hrest

theorem Sound.lookups (h : s.Sound) (hb : s.begun = true) : s.Lookups where
  clustered := h.clustered hb
  probe hash ply := by
    constructor
    · intro hsome
      obtain ⟨x, hx⟩ := Option.isSome_iff_exists.mp hsome
      have htag := tag_of_probe hx
      exact ⟨x, mem_of_probeAmong hx, live_of_tag htag, htag⟩
    · rintro ⟨x, hx, -, htag⟩
      exact isSome_probe h.aligned (h.clustered hb) hx htag
  found hash ply x hx := by
    have htag := tag_of_probe hx
    exact ⟨mem_of_probeAmong hx, live_of_tag htag, htag, h.current hb x (live_of_tag htag)⟩
  probeOrStore _ _ := answer_probeOrStore.stored
  store _ _ _ := answer_store.stored

/-- Once a search has begun since the table was allocated, the clusters are in order and lookups
return what they should, whatever the calls were. -/
theorem lookups_of_run (calls : List Call) (hrun : calls.foldlM History.call start = some s)
    (hb : s.begun = true) : s.Lookups :=
  (sound_start.run calls hrun).lookups hb

/-- Two searches with an entry each. -/
def twoSearches : List Call :=
  [.newSearch, .probeOrStore 5#64 0, .newSearch, .probeOrStore 7#64 1]

theorem lookups_of_run_twoSearches :
    ∃ s, twoSearches.foldlM History.call start = some s ∧ s.Lookups :=
  ⟨_, rfl, lookups_of_run twoSearches rfl rfl⟩

/-- Between the allocation of the table and the first search all entries look alike. -/
theorem not_lookups_resize :
    ¬ ∀ (calls : List Call) (s : History), calls.foldlM History.call start = some s → s.Lookups :=
  fun h => (h [.resize 4] _ rfl).clustered.distinct 0 rfl rfl rfl

end Run

end History

end BnsTT

end Shogi
