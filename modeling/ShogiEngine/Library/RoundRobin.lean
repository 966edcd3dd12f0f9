import Mathlib.Algebra.BigOperators.Group.List.Basic
import Mathlib.Data.List.Rotate

/-!
# Streams read in turn

A ring of slots, each with a stream of records or without one. The slots are visited in turn: a visit takes
one record, or puts the next stream of a source into a slot whose stream has ended. A reader looks for a
record that passes a filter, and gives up after a number of visits without any record.

## Main definitions

- `SlotRing.visit`: one visit
- `Scan`: what a reader may return that gives up after some misses
- `Comes`: a record that passes comes within some misses

## Main results

- `Scan.isSome_iff`: a reader returns a record exactly if one comes within less misses than it bears
- `Scan.conserved`: no record that passes is lost or doubled
-/

namespace RoundRobin

/-- The slots from the one on that is visited next, each with what is left of its stream, and the source of
further streams. -/
structure SlotRing (α σ : Type) where
  slots : List (Option (List α))
  source : σ

/-- What a visit comes to. -/
inductive Visit (α : Type)
  | found (a : α)
  | skipped
  | missed

/-- The record that is found. -/
def Visit.toList {α : Type} : Visit α → List α
  | .found a => [a]
  | .skipped => []
  | .missed => []

section SlotRing

variable {α σ : Type} (ok : α → Bool) (supply : σ → Option (List α) × σ)

namespace SlotRing

/-- A visit of the next slot, which is then the last one. -/
def visit (r : SlotRing α σ) : Visit α × SlotRing α σ :=
  match r.slots with
  | [] => (.missed, r)
  | none :: rest => (.missed, ⟨rest ++ [none], r.source⟩)
  | some [] :: rest => (.missed, ⟨rest ++ [(supply r.source).1], (supply r.source).2⟩)
  | some (a :: l) :: rest => (if ok a then .found a else .skipped, ⟨rest ++ [some l], r.source⟩)

/-- How many records are left in the slots. -/
def size (r : SlotRing α σ) : Nat := (r.slots.flatMap (·.getD [])).length

/-- The records that are left in the slots and in the source. -/
def left (rest : σ → List α) (r : SlotRing α σ) : List α := r.slots.flatMap (·.getD []) ++ rest r.source

end SlotRing

/-- What a reader may return that gives up after `n` misses, or when no slot has a stream. -/
inductive Scan : Nat → SlotRing α σ → Option α → SlotRing α σ → Prop
  | giveUp {r : SlotRing α σ} : Scan 0 r none r
  | found {n : Nat} {r r' : SlotRing α σ} {a : α} (visit : r.visit ok supply = (.found a, r')) :
      Scan (n + 1) r (some a) r'
  | skipped {n : Nat} {r r' r'' : SlotRing α σ} {out : Option α} (visit : r.visit ok supply = (.skipped, r'))
      (rest : Scan (n + 1) r' out r'') : Scan (n + 1) r out r''
  | missed {n : Nat} {r r' r'' : SlotRing α σ} {out : Option α} (visit : r.visit ok supply = (.missed, r'))
      (rest : Scan n r' out r'') : Scan (n + 1) r out r''
  | idle {n : Nat} {r r' : SlotRing α σ} (visit : r.visit ok supply = (.missed, r'))
      (idle : ∀ s ∈ r'.slots, s = none) : Scan (n + 1) r none r'

/-- A record that passes comes after at most `n` misses. -/
inductive Comes : Nat → SlotRing α σ → Prop
  | found {n : Nat} {r r' : SlotRing α σ} {a : α} (visit : r.visit ok supply = (.found a, r')) : Comes n r
  | skipped {n : Nat} {r r' : SlotRing α σ} (visit : r.visit ok supply = (.skipped, r')) (rest : Comes n r') :
      Comes n r
  | missed {n : Nat} {r r' : SlotRing α σ} (visit : r.visit ok supply = (.missed, r')) (rest : Comes n r') :
      Comes (n + 1) r

end SlotRing

section Scan

variable {α σ : Type} {ok : α → Bool} {supply : σ → Option (List α) × σ} {n : Nat} {r r' : SlotRing α σ} {a : α}
  {out : Option α} {rest : σ → List α}

namespace SlotRing

variable {slots : List (Option (List α))} {g : σ} {l : List α}

theorem visit_dead : visit ok supply ⟨none :: slots, g⟩ = (.missed, ⟨slots ++ [none], g⟩) := rfl

theorem visit_ended :
    visit ok supply ⟨some [] :: slots, g⟩ = (.missed, ⟨slots ++ [(supply g).1], (supply g).2⟩) := rfl

theorem visit_cons : visit ok supply ⟨some (a :: l) :: slots, g⟩ =
    (if ok a then .found a else .skipped, ⟨slots ++ [some l], g⟩) := rfl

/-- A record that is passed over is one less in the slots. -/
theorem size_of_skipped (h : r.visit ok supply = (.skipped, r')) : r'.size < r.size := by
  obtain ⟨slots, source⟩ := r
  match slots with
  | [] => cases h
  | none :: rest => cases h
  | some [] :: rest => cases h
  | some (a :: l) :: rest =>
    obtain rfl := (Prod.mk.inj h).2
    rw [size, size, List.flatMap_append, List.flatMap_singleton, List.flatMap_cons, List.length_append,
      List.length_append, Option.getD_some, Option.getD_some, List.length_cons]
    omega

theorem visit_of_idle (ok : α → Bool) (supply : σ → Option (List α) × σ) (h : ∀ s ∈ r.slots, s = none) :
    ∃ r', r.visit ok supply = (.missed, r') ∧ ∀ s ∈ r'.slots, s = none := by
  obtain ⟨slots, source⟩ := r
  match slots with
  | [] => exact ⟨_, rfl, h⟩
  | none :: rest =>
    refine ⟨_, rfl, fun s hs => ?_⟩
    rcases List.mem_append.mp hs with hs | hs
    · exact h s (List.mem_cons_of_mem _ hs)
    · exact List.mem_singleton.mp hs
  | some l :: rest => exact absurd (h _ List.mem_cons_self) (Option.some_ne_none l)

end SlotRing

/-- Nothing comes to slots without streams. -/
theorem not_comes_of_idle (h : ∀ s ∈ r.slots, s = none) : ¬Comes ok supply n r := by
  intro hcomes
  induction hcomes with
  | found visit =>
    obtain ⟨r1, hvisit, -⟩ := SlotRing.visit_of_idle ok supply h
    exact nomatch (Prod.mk.inj (visit.symm.trans hvisit)).1
  | skipped visit _ _ =>
    obtain ⟨r1, hvisit, -⟩ := SlotRing.visit_of_idle ok supply h
    exact nomatch (Prod.mk.inj (visit.symm.trans hvisit)).1
  | missed visit _ ih =>
    obtain ⟨r1, hvisit, hidle⟩ := SlotRing.visit_of_idle ok supply h
    obtain rfl := (Prod.mk.inj (visit.symm.trans hvisit)).2
    exact ih hidle

namespace Scan

theorem comes (h : Scan ok supply n r out r') (hout : out.isSome = true) : ∃ k, n = k + 1 ∧ Comes ok supply k r := by
  induction h with
  | giveUp => cases hout
  | found visit => exact ⟨_, rfl, .found visit⟩
  | skipped visit _ ih =>
    obtain ⟨k, hk, hcomes⟩ := ih hout
    exact ⟨k, hk, .skipped visit hcomes⟩
  | missed visit _ ih =>
    obtain ⟨k, rfl, hcomes⟩ := ih hout
    exact ⟨k + 1, rfl, .missed visit hcomes⟩
  | idle _ _ => cases hout

theorem isSome_of_comes (hcomes : Comes ok supply n r) (h : Scan ok supply (n + 1) r out r') :
    out.isSome = true := by
  induction hcomes generalizing out r' with
  | found visit =>
    cases h with
    | found _ => rfl
    | skipped visit' _ => exact nomatch (Prod.mk.inj (visit.symm.trans visit')).1
    | missed visit' _ => exact nomatch (Prod.mk.inj (visit.symm.trans visit')).1
    | idle visit' _ => exact nomatch (Prod.mk.inj (visit.symm.trans visit')).1
  | skipped visit _ ih =>
    cases h with
    | found _ => rfl
    | skipped visit' rest =>
      obtain rfl := (Prod.mk.inj (visit.symm.trans visit')).2
      exact ih rest
    | missed visit' _ => exact nomatch (Prod.mk.inj (visit.symm.trans visit')).1
    | idle visit' _ => exact nomatch (Prod.mk.inj (visit.symm.trans visit')).1
  | missed visit hrest ih =>
    cases h with
    | found _ => rfl
    | skipped visit' _ => exact nomatch (Prod.mk.inj (visit.symm.trans visit')).1
    | missed visit' rest =>
      obtain rfl := (Prod.mk.inj (visit.symm.trans visit')).2
      exact ih rest
    | idle visit' hidle =>
      obtain rfl := (Prod.mk.inj (visit.symm.trans visit')).2
      exact absurd hrest (not_comes_of_idle hidle)

/-- A reader returns a record exactly if one comes in time. -/
theorem isSome_iff (h : Scan ok supply (n + 1) r out r') : out.isSome = true ↔ Comes ok supply n r := by
  constructor
  · intro hout
    obtain ⟨k, hk, hcomes⟩ := h.comes hout
    obtain rfl := Nat.succ.inj hk
    exact hcomes
  · exact fun hcomes => isSome_of_comes hcomes h

end Scan

/-! ## What is left -/

theorem SlotRing.left_cons (s : Option (List α)) (slots : List (Option (List α))) (g : σ) :
    SlotRing.left rest ⟨s :: slots, g⟩ = s.getD [] ++ (slots.flatMap (·.getD []) ++ rest g) := by
  rw [SlotRing.left, List.flatMap_cons, List.append_assoc]

theorem SlotRing.left_concat (s : Option (List α)) (slots : List (Option (List α))) (g : σ) :
    SlotRing.left rest ⟨slots ++ [s], g⟩ = slots.flatMap (·.getD []) ++ (s.getD [] ++ rest g) := by
  rw [SlotRing.left, List.flatMap_append, List.flatMap_singleton, List.append_assoc]

/-- What one visit takes of the records that pass. -/
theorem SlotRing.conserved_visit (ok : α → Bool) (hrest : ∀ g, (rest g).Perm ((supply g).1.getD [] ++ rest (supply g).2))
    (r : SlotRing α σ) : ((r.left rest).filter ok).Perm
      ((r.visit ok supply).1.toList ++ ((r.visit ok supply).2.left rest).filter ok) := by
  obtain ⟨slots, source⟩ := r
  match slots with
  | [] => exact .refl _
  | none :: slots =>
    rw [SlotRing.visit_dead, SlotRing.left_cons, SlotRing.left_concat]
    exact .refl _
  | some [] :: slots =>
    rw [SlotRing.visit_ended, SlotRing.left_cons, SlotRing.left_concat]
    exact ((hrest source).append_left _).filter ok
  | some (a :: l) :: slots =>
    rw [SlotRing.visit_cons, SlotRing.left_cons, SlotRing.left_concat, Option.getD_some, Option.getD_some]
    have hperm : (a :: l ++ (slots.flatMap (·.getD []) ++ rest source)).Perm
        (a :: (slots.flatMap (·.getD []) ++ (l ++ rest source))) :=
      (List.perm_append_comm_assoc l _ _).cons a
    refine (hperm.filter ok).trans ?_
    by_cases hok : ok a = true
    · rw [List.filter_cons_of_pos hok, if_pos hok]
      exact .refl _
    · rw [List.filter_cons_of_neg hok, if_neg hok]
      exact .refl _

/-- No record that passes is lost or doubled. -/
theorem Scan.conserved (hrest : ∀ g, (rest g).Perm ((supply g).1.getD [] ++ rest (supply g).2))
    (h : Scan ok supply n r out r') :
    ((r.left rest).filter ok).Perm (out.toList ++ (r'.left rest).filter ok) := by
  induction h with
  | giveUp => exact .refl _
  | @found n r r' a visit =>
    have hvisit := r.conserved_visit ok hrest
    rw [visit] at hvisit
    exact hvisit
  | @skipped n r r' r'' out visit _ ih =>
    have hvisit := r.conserved_visit ok hrest
    rw [visit] at hvisit
    exact hvisit.trans ih
  | @missed n r r' r'' out visit _ ih =>
    have hvisit := r.conserved_visit ok hrest
    rw [visit] at hvisit
    exact hvisit.trans ih
  | @idle n r r' visit _ =>
    have hvisit := r.conserved_visit ok hrest
    rw [visit] at hvisit
    exact hvisit

end Scan

/-! ## Streams that are worth a visit -/

section Plenty

variable {α σ : Type} {ok : α → Bool} {supply : σ → Option (List α) × σ} {n m j : Nat} {r r' : SlotRing α σ} {a : α}
  {out : Option α} {l : List α} {I : σ → Prop}

/-- The source has only streams with a record, whose records all pass, until it has none for good. -/
structure Supplies (ok : α → Bool) (supply : σ → Option (List α) × σ) (I : σ → Prop) : Prop where
  keep : ∀ g, I g → I (supply g).2
  pass : ∀ g, I g → ∀ l, (supply g).1 = some l → l ≠ [] ∧ ∀ a ∈ l, ok a = true
  dry : ∀ g, I g → (supply g).1 = none → (supply (supply g).2).1 = none

/-- All records pass, and slots are without a stream only if there are no more. -/
structure SlotRing.Plentiful (ok : α → Bool) (supply : σ → Option (List α) × σ) (I : σ → Prop) (r : SlotRing α σ) :
    Prop where
  pass : ∀ l, some l ∈ r.slots → ∀ a ∈ l, ok a = true
  dead : none ∈ r.slots → (supply r.source).1 = none
  source : I r.source

theorem SlotRing.Plentiful.visit (hs : Supplies ok supply I) (h : r.Plentiful ok supply I) :
    (r.visit ok supply).2.Plentiful ok supply I := by
  obtain ⟨slots, g⟩ := r
  match slots with
  | [] => exact h
  | none :: slots =>
    rw [visit_dead]
    refine ⟨fun l hl => h.pass l ?_, fun _ => h.dead List.mem_cons_self, h.source⟩
    rcases List.mem_append.mp hl with hl | hl
    · exact List.mem_cons_of_mem _ hl
    · exact nomatch List.mem_singleton.mp hl
  | some [] :: slots =>
    rw [visit_ended]
    refine ⟨fun l hl => ?_, fun hnone => ?_, hs.keep g h.source⟩
    · rcases List.mem_append.mp hl with hl | hl
      · exact h.pass l (List.mem_cons_of_mem _ hl)
      · exact (hs.pass g h.source l (List.mem_singleton.mp hl).symm).2
    · rcases List.mem_append.mp hnone with hnone | hnone
      · exact hs.dry g h.source (h.dead (List.mem_cons_of_mem _ hnone))
      · exact hs.dry g h.source (List.mem_singleton.mp hnone).symm
  | some (a :: l) :: slots =>
    rw [visit_cons]
    refine ⟨fun l' hl => ?_, fun hnone => h.dead ?_, h.source⟩
    · rcases List.mem_append.mp hl with hl | hl
      · exact h.pass l' (List.mem_cons_of_mem _ hl)
      · obtain rfl := Option.some.inj (List.mem_singleton.mp hl)
        exact fun x hx => h.pass _ List.mem_cons_self x (List.mem_cons_of_mem _ hx)
    · rcases List.mem_append.mp hnone with hnone | hnone
      · exact List.mem_cons_of_mem _ hnone
      · exact nomatch List.mem_singleton.mp hnone

theorem SlotRing.Plentiful.scan (hs : Supplies ok supply I) (h : r.Plentiful ok supply I)
    (hscan : Scan ok supply n r out r') : r'.Plentiful ok supply I := by
  induction hscan with
  | giveUp => exact h
  | found visit =>
    have hvisit := h.visit hs
    rwa [visit] at hvisit
  | skipped visit _ ih =>
    have hvisit := h.visit hs
    rw [visit] at hvisit
    exact ih hvisit
  | missed visit _ ih =>
    have hvisit := h.visit hs
    rw [visit] at hvisit
    exact ih hvisit
  | idle visit _ =>
    have hvisit := h.visit hs
    rwa [visit] at hvisit

theorem SlotRing.Plentiful.rotate {slots : List (Option (List α))} {g : σ}
    (h : (SlotRing.mk slots g).Plentiful ok supply I) (n : Nat) :
    (SlotRing.mk (slots.rotate n) g).Plentiful ok supply I where
  pass := fun l hl => h.pass l (List.mem_rotate.mp hl)
  dead := fun hnone => h.dead (List.mem_rotate.mp hnone)
  source := h.source

theorem Comes.mono (h : Comes ok supply n r) (hle : n ≤ m) : Comes ok supply m r := by
  induction h generalizing m with
  | found visit => exact .found visit
  | skipped visit _ ih => exact .skipped visit (ih hle)
  | missed visit _ ih =>
    obtain ⟨k, rfl⟩ : ∃ k, m = k + 1 := ⟨m - 1, by omega⟩
    exact .missed visit (ih (by omega))

/-- A record is found in a slot after the slots before it at the latest. -/
theorem SlotRing.Plentiful.comes_of_getElem? (hs : Supplies ok supply I) (h : r.Plentiful ok supply I)
    (hj : r.slots[j]? = some (some (a :: l))) : Comes ok supply j r := by
  induction j generalizing r with
  | zero =>
    obtain ⟨slots, g⟩ := r
    match slots with
    | x :: slots =>
      obtain rfl := Option.some.inj hj
      have hok := h.pass _ List.mem_cons_self a List.mem_cons_self
      exact .found (by rw [visit_cons, if_pos hok])
  | succ j ih =>
    have hnext := h.visit hs
    obtain ⟨slots, g⟩ := r
    have hbehind : ∀ {x y : Option (List α)} {slots : List (Option (List α))},
        (x :: slots)[j + 1]? = some (some (a :: l)) → (slots ++ [y])[j]? = some (some (a :: l)) := by
      intro x y slots hx
      rw [List.getElem?_cons_succ] at hx
      rw [List.getElem?_append_left (List.getElem?_eq_some_iff.mp hx).1]
      exact hx
    match slots with
    | [] => cases hj
    | none :: slots => exact .missed visit_dead (ih hnext (hbehind hj))
    | some [] :: slots => exact .missed visit_ended (ih hnext (hbehind hj))
    | some (b :: l') :: slots =>
      have hok := h.pass _ List.mem_cons_self b List.mem_cons_self
      exact .found (by rw [visit_cons, if_pos hok])

/-- If there is a record in a slot or in the source, one comes within a round. -/
theorem SlotRing.Plentiful.comes (hs : Supplies ok supply I) (h : r.Plentiful ok supply I)
    (hmore : (∃ a l, some (a :: l) ∈ r.slots) ∨ r.slots ≠ [] ∧ (supply r.source).1 ≠ none) :
    Comes ok supply r.slots.length r := by
  by_cases hslot : ∃ a l, some (a :: l) ∈ r.slots
  · obtain ⟨a, l, hmem⟩ := hslot
    obtain ⟨j, hj⟩ := List.mem_iff_getElem?.mp hmem
    exact (h.comes_of_getElem? hs hj).mono (List.getElem?_eq_some_iff.mp hj).1.le
  · obtain ⟨hne, hsource⟩ := hmore.resolve_left hslot
    have hnext := h.visit hs
    obtain ⟨slots, g⟩ := r
    match slots with
    | [] => exact absurd rfl hne
    | none :: slots => exact absurd (h.dead List.mem_cons_self) hsource
    | some (a :: l) :: slots => exact absurd ⟨a, l, List.mem_cons_self⟩ hslot
    | some [] :: slots =>
      -- the slot gets a stream, and its turn comes after the others
      obtain ⟨l, hl⟩ := Option.ne_none_iff_exists'.mp hsource
      obtain ⟨a, l', rfl⟩ := List.exists_cons_of_ne_nil (hs.pass g h.source l hl).1
      have hlast : (slots ++ [(supply g).1])[slots.length]? = some (some (a :: l')) := by
        rw [List.getElem?_append_right le_rfl, Nat.sub_self, hl]
        rfl
      exact .missed visit_ended (hnext.comes_of_getElem? hs hlast)

end Plenty

section Rotate

/-- The entry of a list that stands first in the rotated list, and what a change of it makes of the list that is
rotated once more. -/
theorem rotate_set {β : Type} {l : List β} {n : Nat} {x : β} (hx : l[n % l.length]? = some x) :
    ∃ rest, l.rotate n = x :: rest ∧ ∀ y, (l.set (n % l.length) y).rotate (n + 1) = rest ++ [y] := by
  obtain ⟨hlt, hget⟩ := List.getElem?_eq_some_iff.mp hx
  obtain ⟨i, hi⟩ : ∃ i, n % l.length = i := ⟨_, rfl⟩
  refine ⟨l.drop (i + 1) ++ l.take i, ?_, fun y => ?_⟩
  · rw [List.rotate_eq_drop_append_take_mod, hi, List.drop_eq_getElem_cons (hi ▸ hlt)]
    subst hi
    rw [hget]
    rfl
  · have hrotate : (l.set i y).rotate n = y :: (l.drop (i + 1) ++ l.take i) := by
      rw [List.rotate_eq_drop_append_take_mod, List.length_set, hi,
        List.drop_eq_getElem_cons (by rw [List.length_set]; exact hi ▸ hlt), List.getElem_set_self,
        List.drop_set_of_lt (Nat.lt_succ_self i), List.take_set_of_le le_rfl]
      rfl
    rw [hi, ← List.rotate_rotate, hrotate, List.rotate_cons_succ, List.rotate_zero]

end Rotate

end RoundRobin
