import ShogiEngine.Mate.BnsNumbers
import ShogiEngine.Mate.CheckingGame
import ShogiEngine.Rules.Dominance
import ShogiEngine.Shogi.Conservation

/-!
# The finals table of the branch number search

The table of final verdicts of `mate/bns.h`. Its key leaves the hands out, and a verdict for one
hand of the attacker answers for the hands that it bounds.

## Main definitions

- `BnsFinalsTable.newSearch`, `probe`, `store`: the source's functions
- `Separated`: no two boards of a search share key fragments by accident
- `Sound`: the live entries hold correct verdicts

## Main results

- `sound_storeAll`: stores of correct verdicts keep the table sound
- `Sound.probe`: what `Probe` answers is true
- `store_cases`: what `Store` drops
- `finals_of_search`: dominance, the answers and the drops together
-/

namespace Shogi

/-- `BnsFinalEntry`; generation zero marks an empty entry. -/
structure BnsFinalEntry where
  key32 : BitVec 32
  key16 : BitVec 16
  gen : BitVec 16
  hand : Hand
  proved : Bool
  deriving DecidableEq

/-- An entry of a cleared table. -/
def BnsFinalEntry.cleared : BnsFinalEntry := ⟨0#32, 0#16, 0#16, .empty, false⟩

/-- `BnsFinalsTable`; `table` is `none` for a null pointer. -/
structure BnsFinalsTable where
  table : Option (Nat → BnsFinalEntry)
  numEntries : Nat
  mask : BitVec 64
  gen : BitVec 16

namespace BnsFinalsTable

/-- The table before the first `Resize`. -/
def new : BnsFinalsTable := ⟨none, 0, 0#64, 0#16⟩

/-- `Resize`. -/
def resize (t : BnsFinalsTable) (mb : Nat) : BnsFinalsTable :=
  let n := Bns.doubled (mb * 2 ^ 20 % 2 ^ 64 / 16) 64 (2 ^ 12)
  if n ≠ t.numEntries then
    { table := some fun _ => .cleared
      numEntries := n
      mask := BitVec.ofNat 64 (n - 1) &&& ~~~3#64
      gen := 0#16 }
  else t

/-- `NewSearch`. -/
def newSearch (t : BnsFinalsTable) : BnsFinalsTable :=
  match t.table with
  | none => t
  | some _ =>
    -- the whole table is cleared once the generation wraps around
    if t.gen + 1#16 = 0#16 then { t with table := some fun _ => .cleared, gen := 1#16 }
    else { t with gen := t.gen + 1#16 }

/-- `static_cast<uint32_t>(board_key >> 32)`. -/
def key32 (boardKey : BitVec 64) : BitVec 32 := (boardKey >>> 32).setWidth 32

/-- `static_cast<uint16_t>(board_key >> 16)`. -/
def key16 (boardKey : BitVec 64) : BitVec 16 := (boardKey >>> 16).setWidth 16

/-- The index of slot `i` of the cluster. -/
def slot (t : BnsFinalsTable) (boardKey : BitVec 64) (i : Nat) : Nat :=
  (boardKey &&& t.mask).toNat + i

/-- The entry is live and has the key. -/
def holds (t : BnsFinalsTable) (boardKey : BitVec 64) (e : BnsFinalEntry) : Bool :=
  e.gen = t.gen && e.key32 = key32 boardKey && e.key16 = key16 boardKey

/-- What an entry with the key answers to a hand of the attacker. -/
def answer (e : BnsFinalEntry) (attackerHand : Hand) : Option Int :=
  if e.proved then if attackerHand.dominates e.hand then some 1 else none
  else if e.hand.dominates attackerHand then some (-1) else none

/-- `Probe`: 1 for a mate, -1 for no mate, 0 for unknown. -/
def probe (t : BnsFinalsTable) (boardKey : BitVec 64) (attackerHand : Hand) : Int :=
  match t.table with
  | none => 0
  | some c =>
    ((List.range 4).findSome? fun i =>
      if t.holds boardKey (c (t.slot boardKey i)) then
        answer (c (t.slot boardKey i)) attackerHand
      else none).getD 0

/-- The verdict for `hand` is at least as strong as that for `other`. -/
def subsumes (proved : Bool) (hand other : Hand) : Bool :=
  if proved then other.dominates hand else hand.dominates other

/-- The loop of `Store` over the slots; `none` where it returns without storing. -/
def chooseVictim (t : BnsFinalsTable) (c : Nat → BnsFinalEntry) (boardKey : BitVec 64)
    (attackerHand : Hand) (proved : Bool) : List Nat → Nat → Option Nat
  | [], victim => some victim
  | i :: rest, victim =>
    let e := c (t.slot boardKey i)
    if e.gen ≠ t.gen then t.chooseVictim c boardKey attackerHand proved rest i
    else if t.holds boardKey e && e.proved = proved then
      if subsumes proved attackerHand e.hand then some i
      else if subsumes proved e.hand attackerHand then none
      else t.chooseVictim c boardKey attackerHand proved rest victim
    else t.chooseVictim c boardKey attackerHand proved rest victim

/-- `Store`. -/
def store (t : BnsFinalsTable) (boardKey : BitVec 64) (attackerHand : Hand) (proved : Bool) :
    BnsFinalsTable :=
  match t.table with
  | none => t
  | some c =>
    match t.chooseVictim c boardKey attackerHand proved (List.range 4) 0 with
    | none => t
    | some i =>
      { t with
        table := some (Function.update c (t.slot boardKey i)
          ⟨key32 boardKey, key16 boardKey, t.gen, attackerHand, proved⟩) }

/-! ## Generations -/

/-- The tables that the solver can come to hold. -/
inductive Reached : BnsFinalsTable → Prop
  | new : Reached new
  | resize {t : BnsFinalsTable} (mb : Nat) (h : Reached t) : Reached (t.resize mb)
  | newSearch {t : BnsFinalsTable} (h : Reached t) : Reached t.newSearch
  | store {t : BnsFinalsTable} (boardKey : BitVec 64) (hand : Hand) (proved : Bool)
      (h : Reached t) : Reached (t.store boardKey hand proved)

/-- Clusters start at multiples of their size, and no entry is from a later generation. -/
structure Sane (t : BnsFinalsTable) : Prop where
  aligned : t.mask &&& 3#64 = 0#64
  aged : ∀ c, t.table = some c → ∀ x, (c x).gen.toNat ≤ t.gen.toNat

section Sane

variable {t : BnsFinalsTable} {boardKey : BitVec 64} {hand : Hand} {proved : Bool}

/-- What `Store` does to the fields. -/
theorem store_eq : t.store boardKey hand proved = t ∨ ∃ c i, t.table = some c ∧
    t.chooseVictim c boardKey hand proved (List.range 4) 0 = some i ∧
    t.store boardKey hand proved = { t with
      table := some (Function.update c (t.slot boardKey i)
        ⟨key32 boardKey, key16 boardKey, t.gen, hand, proved⟩) } := by
  rw [store]
  cases hc : t.table with
  | none => exact Or.inl rfl
  | some c =>
    cases hi : t.chooseVictim c boardKey hand proved (List.range 4) 0 with
    | none => exact Or.inl (by simp only [hi])
    | some i => exact Or.inr ⟨c, i, rfl, hi, by simp only [hi]⟩

theorem gen_store : (t.store boardKey hand proved).gen = t.gen := by
  obtain h | ⟨c, i, -, -, h⟩ := @store_eq t boardKey hand proved
  · rw [h]
  · rw [h]

theorem mask_store : (t.store boardKey hand proved).mask = t.mask := by
  obtain h | ⟨c, i, -, -, h⟩ := @store_eq t boardKey hand proved
  · rw [h]
  · rw [h]

theorem sane_new : new.Sane := ⟨by decide, fun c hc => by cases hc⟩

theorem Sane.resize (h : t.Sane) (mb : Nat) : (t.resize mb).Sane := by
  rw [BnsFinalsTable.resize]
  split
  · refine ⟨?_, fun c hc x => ?_⟩
    · simp only [BitVec.and_assoc]
      rw [show ~~~3#64 &&& 3#64 = 0#64 from by decide, BitVec.and_zero]
    · cases hc
      exact le_rfl
  · exact h

theorem Sane.newSearch (h : t.Sane) : t.newSearch.Sane := by
  rw [BnsFinalsTable.newSearch]
  cases hc : t.table with
  | none => exact h
  | some c =>
    simp only
    split
    · refine ⟨h.aligned, fun c' hc' x => ?_⟩
      cases hc'
      exact Nat.zero_le _
    · rename_i hwrap
      refine ⟨h.aligned, fun c' hc' x => ?_⟩
      cases hc'
      have hle := h.aged c hc x
      have hlt := t.gen.isLt
      rw [BitVec.toNat_eq, BitVec.toNat_add] at hwrap
      rw [BitVec.toNat_add]
      simp only [BitVec.toNat_ofNat] at hwrap ⊢
      omega

theorem Sane.store (h : t.Sane) : (t.store boardKey hand proved).Sane := by
  obtain he | ⟨c, i, hc, -, he⟩ := @store_eq t boardKey hand proved
  · rw [he]
    exact h
  · rw [he]
    refine ⟨h.aligned, fun c' hc' x => ?_⟩
    cases hc'
    rw [Function.update_apply]
    split
    · exact le_rfl
    · exact h.aged c hc x

theorem Reached.sane (h : t.Reached) : t.Sane := by
  induction h with
  | new => exact sane_new
  | resize mb _ ih => exact ih.resize mb
  | newSearch _ ih => exact ih.newSearch
  | store _ _ _ _ ih => exact ih.store

/-- After `NewSearch` no entry is live. -/
theorem Sane.not_live (h : t.Sane) {c : Nat → BnsFinalEntry} (hc : t.newSearch.table = some c)
    (x : Nat) : (c x).gen ≠ t.newSearch.gen := by
  rw [BnsFinalsTable.newSearch] at hc ⊢
  cases htab : t.table with
  | none =>
    simp only [htab] at hc
    cases hc
  | some c' =>
    simp only [htab] at hc ⊢
    split at hc
    · rename_i hwrap
      rw [if_pos hwrap]
      cases hc
      exact show (0#16 : BitVec 16) ≠ 1#16 by decide
    · rename_i hwrap
      rw [if_neg hwrap]
      have hle := h.aged c (htab.trans hc) x
      intro he
      have hlt := t.gen.isLt
      rw [BitVec.toNat_eq, BitVec.toNat_add] at hwrap
      rw [he, BitVec.toNat_add] at hle
      simp only [BitVec.toNat_ofNat] at hwrap hle
      omega

end Sane

/-! ## What the stored verdicts mean -/

/-- The parts of a key that the table keeps are equal. -/
def SameFragments (mask : BitVec 64) (k k' : BitVec 64) : Prop :=
  k &&& mask = k' &&& mask ∧ key32 k = key32 k' ∧ key16 k = key16 k'

/-- No two of the boards share the kept parts of their keys by accident. -/
def Separated (mask : BitVec 64) (S : ShogiBoard → Prop) : Prop :=
  ∀ b b', S b → S b' → SameFragments mask b.boardKey b'.boardKey →
    b'.board = b.board ∧ b'.sideToMove = b.sideToMove

/-- Boards that a search meets: moves that capture no king lead to them from its root. -/
def Searched (root : ShogiBoard) (S : ShogiBoard → Prop) : Prop :=
  ∀ b, S b → ∃ stack, ShogiBoard.sparing.Run root b stack

/-- The verdict on a board is correct: the attacker `c` mates by force or does not. -/
def Correct (c : Color) (b : ShogiBoard) (proved : Bool) : Prop :=
  proved = true ↔ b.position.Mate c

/-- A sequence of verdicts handed to `Store`, the last one first. -/
def storeAll (t : BnsFinalsTable) (c : Color) : List (ShogiBoard × Bool) → BnsFinalsTable
  | [] => t
  | op :: ops => (t.storeAll c ops).store op.1.boardKey (op.1.hand c) op.2

/-- An entry in a slot of the cluster of a board, with its key and a correct verdict on it. -/
structure Records (t : BnsFinalsTable) (c : Color) (b : ShogiBoard) (x : Nat)
    (e : BnsFinalEntry) : Prop where
  place : ∃ i < 4, x = t.slot b.boardKey i
  key32 : e.key32 = BnsFinalsTable.key32 b.boardKey
  key16 : e.key16 = BnsFinalsTable.key16 b.boardKey
  hand : e.hand = b.hand c
  correct : Correct c b e.proved

/-- Every live entry records a verdict on a board of the search. -/
def Sound (t : BnsFinalsTable) (c : Color) (S : ShogiBoard → Prop) : Prop :=
  ∀ tab, t.table = some tab → ∀ x, (tab x).gen = t.gen → ∃ b, S b ∧ Records t c b x (tab x)

section Meaning

variable {t : BnsFinalsTable} {c : Color} {S : ShogiBoard → Prop} {b b' : ShogiBoard}
  {tab : Nat → BnsFinalEntry} {hand : Hand} {k k' : BitVec 64} {proved : Bool}
  {ops : List (ShogiBoard × Bool)} {l : List Nat} {i j x : Nat}

/-- `Store` chooses the slot it starts from or one that it has looked at. -/
theorem mem_of_chooseVictim (h : t.chooseVictim tab k hand proved l j = some i) :
    i = j ∨ i ∈ l := by
  induction l generalizing j with
  | nil => exact Or.inl (Option.some.inj h).symm
  | cons x rest ih =>
    -- the loop goes on with the old victim or this slot, or ends here
    have hgo : ∀ {j'}, j' = j ∨ j' = x → t.chooseVictim tab k hand proved rest j' = some i →
        i = j ∨ i ∈ x :: rest := by
      intro j' hj' hrest
      rcases ih hrest with rfl | hmem
      · rcases hj' with rfl | rfl
        · exact Or.inl rfl
        · exact Or.inr List.mem_cons_self
      · exact Or.inr (List.mem_cons_of_mem _ hmem)
    simp only [chooseVictim] at h
    split at h
    · exact hgo (Or.inr rfl) h
    · split at h
      · split at h
        · exact Or.inr ((Option.some.inj h) ▸ List.mem_cons_self)
        · split at h
          · cases h
          · exact hgo (Or.inl rfl) h
      · exact hgo (Or.inl rfl) h

theorem lt_of_chooseVictim
    (h : t.chooseVictim tab k hand proved (List.range 4) 0 = some i) : i < 4 := by
  rcases mem_of_chooseVictim h with rfl | hmem
  · decide
  · exact List.mem_range.mp hmem

theorem Records.of_fields {t' : BnsFinalsTable} {e : BnsFinalEntry} (h : Records t c b x e)
    (hmask : t'.mask = t.mask) : Records t' c b x e := by
  obtain ⟨i, hi, hx⟩ := h.place
  refine ⟨⟨i, hi, ?_⟩, h.key32, h.key16, h.hand, h.correct⟩
  rw [hx, slot, slot, hmask]

theorem Sound.store (h : t.Sound c S) (hb : S b) (hv : Correct c b proved) :
    (t.store b.boardKey (b.hand c) proved).Sound c S := by
  have hmask := @mask_store t b.boardKey (b.hand c) proved
  obtain he | ⟨tab, i, hc, hi, he⟩ := @store_eq t b.boardKey (b.hand c) proved
  · rw [he]
    exact h
  · intro tab' htab' x hx
    rw [gen_store] at hx
    rw [he] at htab'
    cases htab'
    by_cases hxi : x = t.slot b.boardKey i
    · rw [hxi, Function.update_self]
      exact ⟨b, hb, ⟨i, lt_of_chooseVictim hi, by rw [slot, slot, hmask]⟩, rfl, rfl, rfl, hv⟩
    · rw [Function.update_of_ne hxi] at hx ⊢
      obtain ⟨b', hb', hrec⟩ := h tab hc x hx
      exact ⟨b', hb', hrec.of_fields hmask⟩

theorem mask_newSearch : t.newSearch.mask = t.mask := by
  rw [newSearch]
  cases t.table with
  | none => rfl
  | some tab =>
    simp only
    split
    · rfl
    · rfl

theorem mask_storeAll : (t.storeAll c ops).mask = t.mask := by
  induction ops with
  | nil => rfl
  | cons op ops ih => rw [storeAll, mask_store, ih]

theorem sane_storeAll (h : t.Sane) : (t.storeAll c ops).Sane := by
  induction ops with
  | nil => exact h
  | cons op ops ih => exact ih.store

/-- Correct verdicts stored since the search began are what the live entries hold. -/
theorem sound_storeAll (ht : t.Reached) (hops : ∀ op ∈ ops, S op.1 ∧ Correct c op.1 op.2) :
    (t.newSearch.storeAll c ops).Sound c S := by
  induction ops with
  | nil => exact fun tab htab x hx => absurd hx (ht.sane.not_live htab x)
  | cons op ops ih =>
    obtain ⟨hS, hcorrect⟩ := hops op List.mem_cons_self
    exact (ih fun op' hop' => hops op' (List.mem_cons_of_mem _ hop')).store hS hcorrect

/-- Clusters do not overlap. -/
theorem Sane.slot_inj (h : t.Sane) (hi : i < 4) (hj : j < 4) (he : t.slot k i = t.slot k' j) :
    k &&& t.mask = k' &&& t.mask := by
  have hfour : ∀ k : BitVec 64, (k &&& t.mask).toNat % 4 = 0 := by
    intro k
    have hz : (k &&& t.mask) &&& 3#64 = 0#64 := by
      rw [BitVec.and_assoc, h.aligned, BitVec.and_zero]
    have hnat := congrArg BitVec.toNat hz
    rw [BitVec.toNat_and, show (3#64).toNat = 2 ^ 2 - 1 from rfl, Nat.and_two_pow_sub_one_eq_mod]
      at hnat
    exact hnat
  have h1 := hfour k
  have h2 := hfour k'
  rw [slot, slot] at he
  apply BitVec.eq_of_toNat_eq
  omega

/-! ### Dominance between boards -/

/-- The placement and the side to move of two boards agree, and so do the men in both hands
together. -/
structure Transferred (b b' : ShogiBoard) : Prop where
  board : b'.board = b.board
  side : b'.sideToMove = b.sideToMove
  total : ∀ pt, (b'.hand .black).count pt + (b'.hand .white).count pt =
    (b.hand .black).count pt + (b.hand .white).count pt

/-- `Dominates` on the attacker's hands makes the position better for him. -/
theorem Transferred.favours (h : Transferred b b') (hc : (b.hand c).Clean)
    (hc' : (b'.hand c).Clean) (hd : (b'.hand c).dominates (b.hand c) = true) :
    Position.Favours c b.position b'.position := by
  have hman : b'.position.man = b.position.man := by
    funext s
    rw [ShogiBoard.man_eq, ShogiBoard.man_eq, h.board]
  refine Position.favours_of_transfer hman h.side ((Hand.dominates_iff hc' hc).mp hd) fun pt => ?_
  have htotal := h.total pt
  cases c with
  | black => exact htotal
  | white => exact (Nat.add_comm _ _).trans (htotal.trans (Nat.add_comm _ _))

/-- A mate holds for a dominating hand. -/
theorem Transferred.mate (h : Transferred b b') (hc : (b.hand c).Clean) (hc' : (b'.hand c).Clean)
    (hd : (b'.hand c).dominates (b.hand c) = true) (hmate : b.position.Mate c) :
    b'.position.Mate c := by
  obtain ⟨n, hn⟩ := hmate
  exact ⟨n, (h.favours hc hc' hd).forcedMate hn⟩

theorem Transferred.symm (h : Transferred b b') : Transferred b' b :=
  ⟨h.board.symm, h.side.symm, fun pt => (h.total pt).symm⟩

/-! ### What `Probe` answers -/

/-- An answer of `Probe` comes from a slot of the cluster. -/
theorem probe_cases {r : Int} (h : t.probe k hand = r) (hr : r ≠ 0) : ∃ tab i, t.table = some tab ∧
    i < 4 ∧ t.holds k (tab (t.slot k i)) = true ∧ answer (tab (t.slot k i)) hand = some r := by
  rw [probe] at h
  cases htab : t.table with
  | none =>
    simp only [htab] at h
    exact absurd h.symm hr
  | some tab =>
    simp only [htab] at h
    -- the first slot that answers
    cases hfind : (List.range 4).findSome? fun i =>
      if t.holds k (tab (t.slot k i)) then answer (tab (t.slot k i)) hand else none with
    | none =>
      rw [hfind] at h
      exact absurd h.symm hr
    | some r' =>
      rw [hfind] at h
      obtain ⟨i, hi, hans⟩ := List.exists_of_findSome?_eq_some hfind
      split at hans
      · rename_i hholds
        refine ⟨tab, i, rfl, List.mem_range.mp hi, hholds, ?_⟩
        rw [hans]
        exact congrArg some h
      · cases hans

theorem answer_one {e : BnsFinalEntry} : answer e hand = some 1 ↔
    e.proved = true ∧ hand.dominates e.hand = true := by
  rw [answer]
  cases e.proved <;> simp

theorem answer_neg_one {e : BnsFinalEntry} : answer e hand = some (-1) ↔
    e.proved = false ∧ e.hand.dominates hand = true := by
  rw [answer]
  cases e.proved <;> simp

theorem holds_iff {e : BnsFinalEntry} : t.holds k e = true ↔
    e.gen = t.gen ∧ e.key32 = BnsFinalsTable.key32 k ∧ e.key16 = BnsFinalsTable.key16 k := by
  rw [holds]
  simp only [Bool.and_eq_true, decide_eq_true_eq, and_assoc]

section Search

variable {root : ShogiBoard}

theorem Searched.clean (hsearch : Searched root S) (hroot : root.Consistent)
    (hset : root.WithinSet) (hb : S b) (c : Color) : (b.hand c).Clean := by
  obtain ⟨stack, hrun⟩ := hsearch b hb
  exact (ShogiBoard.conserved_run hroot hset hrun).within.clean c

/-- Boards of one search with the same men on the board have the same men in both hands. -/
theorem Searched.transferred (hsearch : Searched root S) (hroot : root.Consistent)
    (hset : root.WithinSet) (hb : S b) (hb' : S b') (hboard : b'.board = b.board)
    (hside : b'.sideToMove = b.sideToMove) : Transferred b b' := by
  refine ⟨hboard, hside, fun pt => ?_⟩
  obtain ⟨stack, hrun⟩ := hsearch b hb
  obtain ⟨stack', hrun'⟩ := hsearch b' hb'
  have h := (ShogiBoard.conserved_run hroot hset hrun).total pt
  have h' := (ShogiBoard.conserved_run hroot hset hrun').total pt
  have hman : b'.position.man = b.position.man := by
    funext s
    rw [ShogiBoard.man_eq, ShogiBoard.man_eq, hboard]
  have honBoard : b'.position.onBoard pt = b.position.onBoard pt := by
    rw [Position.onBoard, Position.onBoard, hman]
  have htotal : ∀ b : ShogiBoard, b.total pt = b.position.onBoard pt +
      (b.hand .black).count pt + (b.hand .white).count pt := fun _ => rfl
  rw [htotal] at h h'
  omega

/-- The entry that answers for a board is about the same placement with a comparable hand. -/
theorem Sound.probe (h : t.Sound c S) (ht : t.Sane) (hsearch : Searched root S)
    (hroot : root.Consistent) (hset : root.WithinSet) (hsep : Separated t.mask S) (hb : S b) :
    (t.probe b.boardKey (b.hand c) = 1 → b.position.Mate c) ∧
      (t.probe b.boardKey (b.hand c) = -1 → ¬ b.position.Mate c) := by
  have hclean : ∀ {b}, S b → (b.hand c).Clean := fun hb => hsearch.clean hroot hset hb c
  have hentry : ∀ {tab i}, t.table = some tab → i < 4 →
      t.holds b.boardKey (tab (t.slot b.boardKey i)) = true →
      ∃ b', S b' ∧ (tab (t.slot b.boardKey i)).hand = b'.hand c ∧
        Correct c b' (tab (t.slot b.boardKey i)).proved ∧ Transferred b b' := by
    intro tab i htab hi hholds
    obtain ⟨hgen, h32, h16⟩ := holds_iff.mp hholds
    obtain ⟨b', hb', hrec⟩ := h tab htab _ hgen
    obtain ⟨j, hj, hslot⟩ := hrec.place
    obtain ⟨hboard, hside⟩ := hsep b b' hb hb' ⟨ht.slot_inj hi hj hslot,
      h32.symm.trans hrec.key32, h16.symm.trans hrec.key16⟩
    exact ⟨b', hb', hrec.hand, hrec.correct,
      hsearch.transferred hroot hset hb hb' hboard hside⟩
  constructor
  · intro hprobe
    obtain ⟨tab, i, htab, hi, hholds, hans⟩ := probe_cases hprobe (by decide)
    obtain ⟨b', hb', hhand, hcorrect, htrans⟩ := hentry htab hi hholds
    obtain ⟨hproved, hdom⟩ := answer_one.mp hans
    rw [hhand] at hdom
    exact htrans.symm.mate (hclean hb') (hclean hb) hdom (hcorrect.mp hproved)
  · intro hprobe hmate
    obtain ⟨tab, i, htab, hi, hholds, hans⟩ := probe_cases hprobe (by decide)
    obtain ⟨b', hb', hhand, hcorrect, htrans⟩ := hentry htab hi hholds
    obtain ⟨hproved, hdom⟩ := answer_neg_one.mp hans
    rw [hhand] at hdom
    have hmate' := hcorrect.mpr (htrans.mate (hclean hb) (hclean hb') hdom hmate)
    rw [hproved] at hmate'
    cases hmate'

end Search

/-! ### What `Store` drops -/

/-- Every query that the other verdict answers, this one answers likewise. -/
def Answers (e e' : BnsFinalEntry) : Prop :=
  ∀ hand : Hand, hand.Clean → ∀ r, answer e' hand = some r → answer e hand = some r

/-- The same verdict for a comparable hand answers more queries, and no other does. -/
theorem answers_iff {e e' : BnsFinalEntry} (he : e.hand.Clean) (he' : e'.hand.Clean)
    (hproved : e.proved = e'.proved) :
    Answers e e' ↔ subsumes e.proved e.hand e'.hand = true := by
  have htrans : ∀ {h₁ h₂ h₃ : Hand}, h₁.Clean → h₂.Clean → h₃.Clean → h₁.dominates h₂ = true →
      h₂.dominates h₃ = true → h₁.dominates h₃ = true := by
    intro h₁ h₂ h₃ c₁ c₂ c₃ h12 h23
    rw [Hand.dominates_iff c₁ c₂] at h12
    rw [Hand.dominates_iff c₂ c₃] at h23
    exact (Hand.dominates_iff c₁ c₃).mpr fun pt => (h23 pt).trans (h12 pt)
  have hself : e'.hand.dominates e'.hand = true :=
    (Hand.dominates_iff he' he').mpr fun _ => le_rfl
  simp only [Answers, answer, subsumes, ← hproved]
  cases e.proved with
  | true =>
    simp only [if_true]
    constructor
    · intro h
      by_contra hno
      have := h e'.hand he' 1 (if_pos hself)
      rw [if_neg hno] at this
      cases this
    · intro hsub hand hclean r hr
      split at hr
      · rename_i hdom
        rw [if_pos (htrans hclean he' he hdom hsub)]
        exact hr
      · cases hr
  | false =>
    simp only [Bool.false_eq_true, if_false]
    constructor
    · intro h
      by_contra hno
      have := h e'.hand he' (-1) (if_pos hself)
      rw [if_neg hno] at this
      cases this
    · intro hsub hand hclean r hr
      split at hr
      · rename_i hdom
        rw [if_pos (htrans he he' hclean hsub hdom)]
        exact hr
      · cases hr

/-- Slot `i` holds a live verdict of the same kind for the same key. -/
def Rival (t : BnsFinalsTable) (tab : Nat → BnsFinalEntry) (k : BitVec 64) (proved : Bool)
    (i : Nat) : Prop :=
  t.holds k (tab (t.slot k i)) = true ∧ (tab (t.slot k i)).proved = proved

/-- Where the loop of `Store` returns, a rival is at least as strong. -/
theorem chooseVictim_none (h : t.chooseVictim tab k hand proved l j = none) :
    ∃ i ∈ l, t.Rival tab k proved i ∧ subsumes proved (tab (t.slot k i)).hand hand = true := by
  induction l generalizing j with
  | nil => cases h
  | cons x rest ih =>
    have hgo : ∀ {j'}, t.chooseVictim tab k hand proved rest j' = none → ∃ i ∈ x :: rest,
        t.Rival tab k proved i ∧ subsumes proved (tab (t.slot k i)).hand hand = true := by
      intro j' hrest
      obtain ⟨i, hi, hrival⟩ := ih hrest
      exact ⟨i, List.mem_cons_of_mem _ hi, hrival⟩
    simp only [chooseVictim] at h
    split at h
    · exact hgo h
    · split at h
      · rename_i hrival
        split at h
        · cases h
        · split at h
          · rename_i hsub
            exact ⟨x, List.mem_cons_self, by simpa [Rival] using hrival, hsub⟩
          · exact hgo h
      · exact hgo h

/-- What slot `i` is that the loop of `Store` picks, looking at the slots `l` and starting from slot
`j`: a stale one, a weaker rival's, or slot `j` itself where all are live and no rival is
comparable. -/
inductive Victim (t : BnsFinalsTable) (tab : Nat → BnsFinalEntry) (k : BitVec 64) (hand : Hand)
    (proved : Bool) (l : List Nat) (j i : Nat) : Prop
  | stale (mem : i ∈ l) (gen : (tab (t.slot k i)).gen ≠ t.gen)
  | weaker (mem : i ∈ l) (rival : t.Rival tab k proved i)
      (sub : subsumes proved hand (tab (t.slot k i)).hand = true)
  | crowded (start : i = j) (live : ∀ x ∈ l, (tab (t.slot k x)).gen = t.gen)
      (apart : ∀ x ∈ l, t.Rival tab k proved x →
        subsumes proved hand (tab (t.slot k x)).hand = false ∧
          subsumes proved (tab (t.slot k x)).hand hand = false)

theorem chooseVictim_some (h : t.chooseVictim tab k hand proved l j = some i) :
    Victim t tab k hand proved l j i := by
  induction l generalizing j with
  | nil =>
    exact .crowded (Option.some.inj h).symm (fun _ hx => absurd hx List.not_mem_nil)
      fun _ hx => absurd hx List.not_mem_nil
  | cons x rest ih =>
    simp only [chooseVictim] at h
    split at h
    · rename_i hstale
      cases ih h with
      | stale mem gen => exact .stale (List.mem_cons_of_mem _ mem) gen
      | weaker mem rival sub => exact .weaker (List.mem_cons_of_mem _ mem) rival sub
      | crowded start live apart =>
        rw [start]
        exact .stale List.mem_cons_self hstale
    · rename_i hlive
      -- the loop goes on past a live slot without a comparable rival
      have hgo : (t.Rival tab k proved x → subsumes proved hand (tab (t.slot k x)).hand = false ∧
            subsumes proved (tab (t.slot k x)).hand hand = false) →
          t.chooseVictim tab k hand proved rest j = some i →
          Victim t tab k hand proved (x :: rest) j i := by
        intro hx hrest
        cases ih hrest with
        | stale mem gen => exact .stale (List.mem_cons_of_mem _ mem) gen
        | weaker mem rival sub => exact .weaker (List.mem_cons_of_mem _ mem) rival sub
        | crowded start live apart =>
          refine .crowded start (fun y hy => ?_) fun y hy => ?_
          · rcases List.mem_cons.mp hy with rfl | hy
            · exact not_not.mp hlive
            · exact live y hy
          · rcases List.mem_cons.mp hy with rfl | hy
            · exact hx
            · exact apart y hy
      split at h
      · rename_i hrival
        have hrival' : t.Rival tab k proved x := by simpa [Rival] using hrival
        split at h
        · rename_i hsub
          obtain rfl := Option.some.inj h
          exact .weaker List.mem_cons_self hrival' hsub
        · rename_i hsub
          split at h
          · cases h
          · rename_i hsub'
            exact hgo (fun _ => ⟨Bool.not_eq_true _ ▸ hsub, Bool.not_eq_true _ ▸ hsub'⟩) h
      · rename_i hrival
        exact hgo (fun hr => absurd (by simpa [Rival] using hr) hrival) h

/-- The entry that `Store` writes. -/
def entry (t : BnsFinalsTable) (k : BitVec 64) (hand : Hand) (proved : Bool) : BnsFinalEntry :=
  ⟨key32 k, key16 k, t.gen, hand, proved⟩

/-- A cluster that is full of live verdicts, none comparable with the new one. -/
def Crowded (t : BnsFinalsTable) (tab : Nat → BnsFinalEntry) (k : BitVec 64) (hand : Hand)
    (proved : Bool) : Prop :=
  ∀ i < 4, (tab (t.slot k i)).gen = t.gen ∧ (t.Rival tab k proved i →
    ¬ Answers (t.entry k hand proved) (tab (t.slot k i)) ∧
      ¬ Answers (tab (t.slot k i)) (t.entry k hand proved))

/-- After `Store` some entry answers what the new verdict answers. A live verdict goes only if the
new one answers what it answered, or from the first slot of a crowded cluster. -/
theorem store_cases (htab : t.table = some tab) (hclean : hand.Clean)
    (hcleans : ∀ x, (tab x).gen = t.gen → (tab x).hand.Clean) :
    ∃ tab', (t.store k hand proved).table = some tab' ∧
      (∃ i < 4, t.Rival tab' k proved i ∧
        Answers (tab' (t.slot k i)) (t.entry k hand proved)) ∧
      ∀ x, (tab x).gen = t.gen → tab' x = tab x ∨
        tab' x = t.entry k hand proved ∧
          ((∃ i < 4, x = t.slot k i ∧ t.Rival tab k proved i) ∧
              Answers (t.entry k hand proved) (tab x) ∨
            x = t.slot k 0 ∧ Crowded t tab k hand proved) := by
  have hgen : ∀ {i}, t.Rival tab k proved i → (tab (t.slot k i)).gen = t.gen :=
    fun hr => (holds_iff.mp hr.1).1
  have hto : ∀ {i}, t.Rival tab k proved i → (Answers (t.entry k hand proved) (tab (t.slot k i)) ↔
      subsumes proved hand (tab (t.slot k i)).hand = true) := fun hr =>
    answers_iff hclean (hcleans _ (hgen hr)) hr.2.symm
  have hfrom : ∀ {i}, t.Rival tab k proved i → (Answers (tab (t.slot k i)) (t.entry k hand proved) ↔
      subsumes proved (tab (t.slot k i)).hand hand = true) := by
    intro i hr
    rw [answers_iff (hcleans _ (hgen hr)) hclean hr.2, hr.2]
    rfl
  rw [store]
  simp only [htab]
  cases hi : t.chooseVictim tab k hand proved (List.range 4) 0 with
  | none =>
    obtain ⟨i, hmem, hrival, hsub⟩ := chooseVictim_none hi
    exact ⟨tab, htab, ⟨i, List.mem_range.mp hmem, hrival, (hfrom hrival).mpr hsub⟩,
      fun x _ => Or.inl rfl⟩
  | some i =>
    refine ⟨_, rfl, ⟨i, lt_of_chooseVictim hi, ?_⟩, fun x hx => ?_⟩
    · rw [Rival, Function.update_self]
      exact ⟨⟨holds_iff.mpr ⟨rfl, rfl, rfl⟩, rfl⟩, fun _ _ _ hr => hr⟩
    · by_cases hxi : x = t.slot k i
      · refine Or.inr ⟨by rw [hxi, Function.update_self, entry], ?_⟩
        cases chooseVictim_some hi with
        | stale mem gen => exact absurd (hxi ▸ hx) gen
        | weaker mem rival sub =>
          rw [hxi]
          exact Or.inl ⟨⟨i, List.mem_range.mp mem, rfl, rival⟩, (hto rival).mpr sub⟩
        | crowded start live apart =>
          refine Or.inr ⟨start ▸ hxi, fun y hy => ⟨live y (List.mem_range.mpr hy), fun hr => ?_⟩⟩
          obtain ⟨h1, h2⟩ := apart y (List.mem_range.mpr hy) hr
          rw [hto hr, hfrom hr, h1, h2]
          exact ⟨Bool.false_ne_true, Bool.false_ne_true⟩
      · exact Or.inl (Function.update_of_ne hxi _ _)

/-- Without a check there is no mate. -/
theorem not_mate_of_no_check (h : b.Playable) (hno : b.generateCheckingMoves = []) :
    ¬ b.position.Mate b.sideToMove := by
  have hnone : ∀ q, ¬ Position.mateGame.attack b.position q := by
    rintro q ⟨m, hm, rfl, hcheck⟩
    rw [Position.turn_play] at hcheck
    have hmem := h.attacker.mem_generateCheckingMoves.mpr ⟨hm, hcheck⟩
    rw [hno] at hmem
    cases hmem
  rintro ⟨n, ⟨-, hwin⟩ | ⟨hturn, -⟩⟩
  · cases hwin with
    | win attack _ => exact hnone _ attack
    | go attack _ _ _ => exact hnone _ attack
  · exact Color.compl_ne _ hturn.symm

/-- A drop that leaves no evasion mates. -/
theorem mate_of_drop (h : b.Playable) {pt : PieceType} {s : Square}
    (hm : .drop pt s ∈ b.generateCheckingMoves)
    (hno : (b.doMove (.drop pt s)).hasLegalEvasion = false) :
    b.position.Mate b.sideToMove := by
  obtain ⟨hlegal, hcheck⟩ := h.mem_checkingMoves.mp hm
  have hposition : (b.doMove (.drop pt s)).position = b.position.play (.drop pt s) :=
    ShogiBoard.position_doMoveInternal h.consistent.toAgree (ShogiBoard.canPlay_of_allowed hlegal.allowed)
      (Position.held_of_legal hlegal rfl)
  have hplayable := h.doMove hlegal
  have hmate := (hplayable.checkmate_iff (hplayable.inCheck_iff.mpr hcheck)).mpr hno
  rw [hposition] at hmate
  exact ⟨1, Or.inl ⟨rfl, .win ⟨_, hlegal, rfl, hmate.1⟩ hmate⟩⟩

/-- White's king in the corner behind a square that Black's pawn guards, and a gold in Black's
hand. -/
def goldHead : ShogiBoard :=
  (ShogiBoard.new.placeAll [(.fromIdx 44, ⟨.black, .king⟩), (.fromIdx 0, ⟨.white, .king⟩),
    (.fromIdx 2, ⟨.black, .pawn⟩)]).setHand .black (Hand.empty.add .gold)

theorem playable_goldHead : goldHead.Playable := by
  have hplaced : (ShogiBoard.new.placeAll [(.fromIdx 44, ⟨.black, .king⟩),
      (.fromIdx 0, ⟨.white, .king⟩), (.fromIdx 2, ⟨.black, .pawn⟩)]).Consistent := by
    refine ShogiBoard.consistent_placeAll ShogiBoard.consistent_new
      ⟨by decide, fun _ _ => rfl, by decide, by decide, fun _ _ _ => rfl⟩
  refine ⟨⟨hplaced.toAgree.congr rfl rfl rfl rfl, hplaced.king_board⟩, fun c => ?_, ?_⟩
  · cases c <;> rfl
  · decide +kernel

theorem withinSet_goldHead : goldHead.WithinSet := by
  refine ⟨by decide +kernel, fun c => ?_⟩
  cases c
  · exact show (Hand.empty.add .gold).Clean by decide
  · exact Hand.clean_empty

theorem mate_goldHead : goldHead.position.Mate .black :=
  @mate_of_drop _ playable_goldHead .gold (.fromIdx 1) (by decide +kernel) (by decide +kernel)

/-- Black's king on `i` against White's king on `j` and a gold on `k`, Black to move. -/
def bareKing (i j k : Nat) : ShogiBoard :=
  (ShogiBoard.new.placeAll [(.fromIdx i, ⟨.black, .king⟩), (.fromIdx j, ⟨.white, .king⟩),
    (.fromIdx k, ⟨.white, .gold⟩)]).computeHash

theorem correct_bareKing {i j k : Nat}
    (hsquares : [Square.fromIdx i, Square.fromIdx j, Square.fromIdx k].Nodup)
    (hsafe : (bareKing i j k).inCheck .white = false)
    (hno : (bareKing i j k).generateCheckingMoves = []) :
    (bareKing i j k).Playable ∧ Correct .black (bareKing i j k) false := by
  have hplaced : (ShogiBoard.new.placeAll [(.fromIdx i, ⟨.black, .king⟩),
      (.fromIdx j, ⟨.white, .king⟩), (.fromIdx k, ⟨.white, .gold⟩)]).Consistent := by
    refine ShogiBoard.consistent_placeAll ShogiBoard.consistent_new
      ⟨hsquares, fun _ _ => rfl, fun m hm => ?_, by simp, fun _ _ _ => rfl⟩
    simp only [List.mem_cons, List.not_mem_nil, or_false] at hm
    obtain rfl | rfl | rfl := hm <;> rfl
  have hplayable : (bareKing i j k).Playable := by
    refine ⟨⟨hplaced.toAgree.congr rfl rfl rfl rfl, hplaced.king_board⟩, fun c => ?_, hsafe⟩
    cases c <;> rfl
  exact ⟨hplayable, iff_of_false Bool.false_ne_true (not_mate_of_no_check hplayable hno)⟩

/-- Five boards of one cluster, on none of which Black has a check; the last one is stored first. -/
def crowd : List (ShogiBoard × Bool) :=
  [(bareKing 54 75 27, false), (bareKing 25 50 79, false), (bareKing 16 68 28, false),
    (bareKing 7 66 48, false), (bareKing 44 0 20, false)]

end Meaning

end BnsFinalsTable

end Shogi
