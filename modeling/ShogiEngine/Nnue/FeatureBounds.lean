import ShogiEngine.Nnue.Accumulator
import ShogiEngine.Shogi.Conservation

/-!
# Bounds of the features

On a board within the physical set the feature lists fit into their arrays, name rows of their
tables, and name no row twice; and pairs are looked up only where the table has them.

## Main definitions

- `Fits`: what a feature list has to satisfy

## Main results

- `popCount_attacked_le`: a man attacks at most eight occupied squares
- `length_slots`: the slots are the men other than kings, on the board and in the hands
- `features_fit`: all lists fit
-/

namespace Shogi

/-! ## Eight directions -/

/-- On which side of `x` does `y` lie. -/
def side (x y : Nat) : Nat := if y < x then 0 else if y = x then 1 else 2

/-- The direction of `t` seen from `s`, one of nine. -/
def direction (s t : Square) : Nat := 3 * side s.file t.file + side s.rank t.rank

section Directions

variable {pt : PieceType} {c : Color} {s t t' : Square}

theorem side_spec {x y : Nat} : side x y = 0 ∧ y < x ∨ side x y = 1 ∧ y = x ∨ side x y = 2 ∧ x < y := by
  rw [side]
  split_ifs <;> omega

/-- A man reaches squares on a line with its own, unless it is a knight. -/
theorem knight_or_line_of_reach (h : Reach pt c s t) : pt = .knight ∨ s.file = t.file ∨
    s.rank = t.rank ∨ s.file + t.rank = t.file + s.rank ∨ s.file + s.rank = t.file + t.rank := by
  rw [reach_iff] at h
  cases pt <;> cases c <;> simp only [reduceCtorEq, false_or, true_or] at h ⊢ <;> omega

theorem ne_of_reach (h : Reach pt c s t) : s ≠ t := by
  rw [Square.ne_iff_coord]
  rw [reach_iff] at h
  cases pt <;> cases c <;> simp only at h <;> omega

/-- Of two squares on one line with `s`, on the same side of it, one stands before the other. -/
theorem between_of_line {k : LineKind} (h : k.inv s = k.inv t) (h' : k.inv s = k.inv t')
    (hside : k.pos s < k.pos t ∧ k.pos s < k.pos t' ∨ k.pos t < k.pos s ∧ k.pos t' < k.pos s)
    (hne : t ≠ t') : Between s t t' ∨ Between s t' t := by
  have hpos : k.pos t ≠ k.pos t' := fun hp => hne (lines.inj (h.symm.trans h') hp)
  rcases lt_or_gt_of_ne hpos with hlt | hlt
  · rcases hside with hs | hs
    · exact Or.inl ⟨k, h, h.symm.trans h', Or.inl ⟨hs.1, hlt⟩⟩
    · exact Or.inr ⟨k, h', h'.symm.trans h, Or.inr ⟨hlt, hs.2⟩⟩
  · rcases hside with hs | hs
    · exact Or.inr ⟨k, h', h'.symm.trans h, Or.inl ⟨hs.2, hlt⟩⟩
    · exact Or.inl ⟨k, h, h.symm.trans h', Or.inr ⟨hlt, hs.1⟩⟩

/-- The direction decides the line and the side. -/
theorem between_of_direction (hs : s ≠ t) (h : direction s t = direction s t')
    (hline : s.file = t.file ∨ s.rank = t.rank ∨ s.file + t.rank = t.file + s.rank ∨
      s.file + s.rank = t.file + t.rank)
    (hline' : s.file = t'.file ∨ s.rank = t'.rank ∨ s.file + t'.rank = t'.file + s.rank ∨
      s.file + s.rank = t'.file + t'.rank) (hne : t ≠ t') : Between s t t' ∨ Between s t' t := by
  have hfile := @side_spec s.file t.file
  have hfile' := @side_spec s.file t'.file
  have hrank := @side_spec s.rank t.rank
  have hrank' := @side_spec s.rank t'.rank
  rw [direction, direction] at h
  have hx : side s.file t.file = side s.file t'.file := by omega
  have hy : side s.rank t.rank = side s.rank t'.rank := by omega
  rw [hx] at hfile
  rw [hy] at hrank
  clear h hx hy
  have hside : s.file < t.file ∧ s.file < t'.file ∨ t.file < s.file ∧ t'.file < s.file ∨
      s.file = t.file ∧ s.file = t'.file := by
    clear hrank hrank' hline hline'
    omega
  have hside' : s.rank < t.rank ∧ s.rank < t'.rank ∨ t.rank < s.rank ∧ t'.rank < s.rank ∨
      s.rank = t.rank ∧ s.rank = t'.rank := by
    clear hfile hfile' hline hline' hside
    omega
  clear hfile hfile' hrank hrank'
  by_cases h1 : s.file = t.file
  · have hrank : s.rank ≠ t.rank := fun h2 => hs (Square.ext_coord h1 h2)
    refine @between_of_line s t t' .file ?_ ?_ ?_ hne <;> simp only [LineKind.inv, LineKind.pos] <;>
      omega
  by_cases h2 : s.rank = t.rank
  · refine @between_of_line s t t' .rank ?_ ?_ ?_ hne <;> simp only [LineKind.inv, LineKind.pos] <;>
      omega
  have h1' : s.file ≠ t'.file := by omega
  have h2' : s.rank ≠ t'.rank := by omega
  have h3 := (hline.resolve_left h1).resolve_left h2
  have h3' := (hline'.resolve_left h1').resolve_left h2'
  clear hline hline'
  rcases h3 with h3 | h3
  · refine @between_of_line s t t' .diag ?_ ?_ ?_ hne <;> simp only [LineKind.inv, LineKind.pos] <;>
      omega
  · refine @between_of_line s t t' .anti ?_ ?_ ?_ hne <;> simp only [LineKind.inv, LineKind.pos] <;>
      omega

/-- In one direction a man attacks no more than one occupied square. -/
theorem eq_of_direction {occ : Square → Prop} (ht : Attacks pt c occ s t)
    (ht' : Attacks pt c occ s t') (hocc : occ t) (hocc' : occ t')
    (h : direction s t = direction s t') : t = t' := by
  by_cases hk : pt = .knight
  · subst hk
    have hfile := @side_spec s.file t.file
    have hfile' := @side_spec s.file t'.file
    have hrank := @side_spec s.rank t.rank
    have hrank' := @side_spec s.rank t'.rank
    have h1 := (reach_iff _ _ _ _).mp ht.1
    have h2 := (reach_iff _ _ _ _).mp ht'.1
    rw [direction, direction] at h
    apply Square.ext_coord <;> cases c <;> simp only at h1 h2 <;> omega
  · by_contra hne
    have hline := (knight_or_line_of_reach ht.1).resolve_left hk
    have hline' := (knight_or_line_of_reach ht'.1).resolve_left hk
    -- the nearer of the two would stand in the way
    rcases between_of_direction (ne_of_reach ht.1) h hline hline' hne with hb | hb
    · exact ht'.2 t hb hocc
    · exact ht.2 t' hb hocc'

theorem direction_mem (h : Reach pt c s t) : direction s t ∈ (Finset.range 9).erase 4 := by
  have hne := ne_of_reach h
  have hfile := @side_spec s.file t.file
  have hrank := @side_spec s.rank t.rank
  rw [Square.ne_iff_coord] at hne
  rw [Finset.mem_erase, Finset.mem_range, direction]
  omega

/-- A man attacks at most eight occupied squares. -/
theorem popCount_attacked_le (pt : PieceType) (c : Color) (s : Square) (occ : Bitboard) :
    (pieceAttacks pt c s occ &&& occ).popCount ≤ 8 := by
  rw [Nnue.popCount_eq_card]
  refine Finset.card_le_card_of_injOn (t := (Finset.range 9).erase 4) (direction s) ?_ ?_
  · intro t ht
    rw [Finset.mem_coe, List.mem_toFinset, Bitboard.mem_squares, Bitboard.mem_and,
      mem_pieceAttacks] at ht
    exact direction_mem ht.1.1
  · intro t ht t' ht' h
    rw [Finset.mem_coe, List.mem_toFinset, Bitboard.mem_squares, Bitboard.mem_and,
      mem_pieceAttacks] at ht ht'
    exact eq_of_direction ht.1 ht'.1 ht.2 ht'.2 h

end Directions

/-! ## Counting the men -/

namespace Nnue

open ShogiBoard

section Counting

variable {b : ShogiBoard} {p c : Color}

/-- The men of colour `c` other than its king, type by type. -/
def menCount (b : ShogiBoard) (c : Color) : Nat :=
  (slotTypes.map fun tid => (b.piecesOf c (typeFromId tid)).popCount).sum

/-- The men in the hand of colour `c`, kind by kind. -/
def handCount (b : ShogiBoard) (c : Color) : Nat :=
  ((List.range kHandKinds).map fun h => (b.hand c).count (handKindType h)).sum

theorem length_boardSlots : (boardSlots b p c).length = menCount b c := by
  rw [boardSlots, List.length_flatMap, menCount]
  simp only [List.length_map, Bitboard.popCount]

theorem length_handSlots : (handSlots b p c).length = handCount b c := by
  rw [handSlots, List.length_flatMap, handCount]
  simp only [List.length_map, List.length_range']

theorem popCount_piecesOf (b : ShogiBoard) (c : Color) (pt : PieceType) :
    (b.piecesOf c pt).popCount = ∑ s, if b.Has c pt s then 1 else 0 := by
  rw [popCount_eq_card, ← Finset.card_filter]
  congr 1
  ext s
  rw [List.mem_toFinset, Bitboard.mem_squares, mem_piecesOf, Finset.mem_filter]
  exact (and_iff_right (Finset.mem_univ s)).symm

theorem sum_map_sum {α : Type} (l : List α) (f : α → Square → Nat) :
    (l.map fun a => ∑ s, f a s).sum = ∑ s, (l.map fun a => f a s).sum := by
  induction l with
  | nil => exact Finset.sum_const_zero.symm
  | cons a l ih => simp only [List.map_cons, List.sum_cons, ih, Finset.sum_add_distrib]

/-- A man other than a king has one slot and is worth one man of its base type. -/
theorem slots_of_man {q : Piece} (hq : q.type.isValid = true) :
    (slotTypes.map fun tid => if q = ⟨.black, typeFromId tid⟩ then 1 else 0).sum +
        (slotTypes.map fun tid => if q = ⟨.white, typeFromId tid⟩ then 1 else 0).sum =
      (PieceType.handTypes.map fun pt => if q.type.base = pt then 1 else 0).sum := by
  obtain ⟨c, pt⟩ := q
  revert hq
  cases c <;> cases pt <;> decide

/-- The slots of the board are the men of the base types. -/
theorem menCount_add (ha : b.Agree) : menCount b .black + menCount b .white =
    (PieceType.handTypes.map fun pt => b.position.onBoard pt).sum := by
  simp only [menCount, popCount_piecesOf, Position.onBoard, sum_map_sum,
    ← Finset.sum_add_distrib]
  refine Finset.sum_congr rfl fun s _ => ?_
  simp only [ha.has_iff, men_iff, man_eq]
  by_cases hs : b.board s = .none
  · simp only [hs, ne_eq, not_true_eq_false, false_and, if_false, if_true, Position.worth]
    rfl
  · simp only [hs, ne_eq, not_false_eq_true, true_and, if_false, Position.worth]
    exact slots_of_man (ha.valid s hs)

theorem handCount_eq (b : ShogiBoard) (c : Color) :
    handCount b c = (PieceType.handTypes.map fun pt => (b.hand c).count pt).sum := rfl

/-- All slots of both owners are the men of a set. -/
theorem slotCount_le (ha : b.Agree) (hset : b.WithinSet) :
    menCount b .black + menCount b .white + handCount b .black + handCount b .white ≤ 38 := by
  have htotal : ∀ pt ∈ PieceType.handTypes, b.position.onBoard pt + (b.hand .black).count pt +
      (b.hand .white).count pt ≤ kPhysicalPieceCounts pt :=
    fun pt hpt => hset.total_le pt (PieceType.mem_handTypes.mp hpt)
  have hsum : (PieceType.handTypes.map fun pt => b.position.onBoard pt + (b.hand .black).count pt +
      (b.hand .white).count pt).sum ≤ (PieceType.handTypes.map kPhysicalPieceCounts).sum :=
    List.sum_le_sum htotal
  rw [List.sum_map_add, List.sum_map_add] at hsum
  rw [menCount_add ha, handCount_eq, handCount_eq]
  exact hsum

/-- There is at most one king. -/
theorem kingCount_le (ha : b.Agree) (c : Color) : (b.piecesOf c .king).popCount ≤ 1 := by
  rw [popCount_eq_card, Finset.card_le_one]
  intro s hs t ht
  rw [List.mem_toFinset, Bitboard.mem_squares, mem_piecesOf, ha.has_iff, men_iff] at hs ht
  exact ha.king_unique hs.2 ht.2

/-- The threats of a colour: at most eight for each of its men. -/
theorem length_threats_le (ha : b.Agree) (c : Color) :
    (threats b c).length ≤ 8 * (menCount b c + 1) := by
  have hmen : ∀ tid, ((b.piecesOf c (typeFromId tid)).squares.flatMap fun src =>
      (pieceAttacks (typeFromId tid) c src b.occupied &&& b.occupied).squares.map fun dst =>
        Threat.mk tid src dst).length ≤ (b.piecesOf c (typeFromId tid)).popCount * 8 := by
    intro tid
    rw [List.length_flatMap, Bitboard.popCount, ← List.sum_replicate_nat, ← List.map_const']
    refine List.sum_le_sum fun src _ => ?_
    rw [List.length_map]
    exact popCount_attacked_le _ _ _ _
  have htypes : List.range kTypeIds = 0 :: slotTypes := rfl
  have hking := kingCount_le ha c
  have hsum : (slotTypes.map fun tid => ((b.piecesOf c (typeFromId tid)).squares.flatMap fun src =>
      (pieceAttacks (typeFromId tid) c src b.occupied &&& b.occupied).squares.map fun dst =>
        Threat.mk tid src dst).length).sum ≤
      (slotTypes.map fun tid => (b.piecesOf c (typeFromId tid)).popCount * 8).sum :=
    List.sum_le_sum fun tid _ => hmen tid
  rw [List.sum_map_mul_right] at hsum
  rw [threats, htypes, List.length_flatMap, List.map_cons, List.sum_cons]
  have hzero := hmen 0
  rw [show typeFromId 0 = .king from rfl] at hzero
  rw [show typeFromId 0 = .king from rfl]
  rw [← menCount] at hsum
  omega

end Counting

/-! ## Different rows -/

/-- A feature list fits: its entries are rows of the table, no row comes twice, and the array holds
them. -/
structure Fits (l : List Nat) (inputs capacity : Nat) : Prop where
  lt : ∀ i ∈ l, i < inputs
  nodup : l.Nodup
  length_le : l.length ≤ capacity

section Rows

variable {b : ShogiBoard} {p c c' : Color} {tid tid' h h' k k' i : Nat} {s s' : Square}

/-- A list put together from parts has no entry twice if an entry decides its part. -/
theorem nodup_flatMap_map {α β γ : Type} {l : List α} {f : α → List β} {g : α → β → γ}
    (hl : l.Nodup) (hf : ∀ a ∈ l, (f a).Nodup)
    (hinj : ∀ a ∈ l, ∀ x ∈ f a, ∀ a' ∈ l, ∀ x' ∈ f a', g a x = g a' x' → a = a' ∧ x = x') :
    (l.flatMap fun a => (f a).map (g a)).Nodup := by
  rw [List.nodup_flatMap]
  refine ⟨fun a ha => (hf a ha).map_on fun x hx x' hx' h => (hinj a ha x hx a ha x' hx' h).2, ?_⟩
  refine hl.imp_of_mem fun {a a'} ha ha' hne i hi hi' => ?_
  obtain ⟨x, hx, rfl⟩ := List.mem_map.mp hi
  obtain ⟨x', hx', h⟩ := List.mem_map.mp hi'
  exact hne (hinj a ha x hx a' ha' x' hx' h.symm).1

theorem frameSq_inj : frameSq p s = frameSq p s' ↔ s = s' := by
  rw [frameSq, frameSq]
  split
  · exact Iff.rfl
  · exact Square.flipped_inj

theorem boardSlot_inj (htid : tid < kTypeIds) (htid' : tid' < kTypeIds)
    (h : boardSlot (ownerOf c p) tid s = boardSlot (ownerOf c' p) tid' s') :
    c = c' ∧ tid = tid' ∧ s = s' := by
  have hs := s.isLt
  have hs' := s'.isLt
  rw [boardSlot, boardSlot] at h
  rw [kTypeIds] at *
  exact ⟨ownerOf_inj (p := p) (by omega), by omega, Fin.ext (by omega)⟩

/-- The offsets of the hands are the sums of the greatest counts. -/
theorem kHandOff_eq : ∀ h < kHandKinds, kHandOff h = PrefixSums.before kHandMax h := by decide

theorem handSlot_lt (hh : h < kHandKinds) (hk : 1 ≤ k ∧ k ≤ kHandMax h) :
    handSlot (ownerOf c p) h k < kHandSlots := by
  have ho : ownerOf c p < 2 := ownerOf_lt
  have hlt : PrefixSums.before kHandMax h + (k - 1) < PrefixSums.before kHandMax kHandKinds :=
    PrefixSums.before_add_lt hh (by omega)
  have htotal : PrefixSums.before kHandMax kHandKinds = kHandSlotsPerOwner := rfl
  rw [handSlot, kHandOff_eq h hh, kHandSlots]
  rw [htotal] at hlt
  rw [kHandSlotsPerOwner] at *
  omega

theorem handSlot_inj (hh : h < kHandKinds) (hk : 1 ≤ k ∧ k ≤ kHandMax h) (hh' : h' < kHandKinds)
    (hk' : 1 ≤ k' ∧ k' ≤ kHandMax h')
    (heq : handSlot (ownerOf c p) h k = handSlot (ownerOf c' p) h' k') :
    c = c' ∧ h = h' ∧ k = k' := by
  have hlt : PrefixSums.before kHandMax h + (k - 1) < PrefixSums.before kHandMax kHandKinds :=
    PrefixSums.before_add_lt hh (by omega)
  have hlt' : PrefixSums.before kHandMax h' + (k' - 1) < PrefixSums.before kHandMax kHandKinds :=
    PrefixSums.before_add_lt hh' (by omega)
  have htotal : PrefixSums.before kHandMax kHandKinds = kHandSlotsPerOwner := rfl
  rw [handSlot, handSlot, kHandOff_eq h hh, kHandOff_eq h' hh'] at heq
  rw [htotal] at hlt hlt'
  rw [kHandSlotsPerOwner] at *
  have howner : ownerOf c p = ownerOf c' p := by omega
  obtain ⟨hkind, hcount⟩ := @PrefixSums.before_add_inj kHandMax h h' (k - 1) (k' - 1) (by omega)
    (by omega) (by rw [howner] at heq; omega)
  exact ⟨ownerOf_inj howner, hkind, by omega⟩

theorem count_le_kHandMax (hset : b.WithinSet) (c : Color) (hh : h < kHandKinds) :
    (b.hand c).count (handKindType h) ≤ kHandMax h := by
  have hkind : ∀ h < kHandKinds, (handKindType h).isHandPiece = true ∧
      kPhysicalPieceCounts (handKindType h) = kHandMax h := by decide
  obtain ⟨hpiece, hcount⟩ := hkind h hh
  rw [← hcount]
  exact hset.count_le c hpiece

theorem mem_boardSlots : i ∈ boardSlots b p c ↔ ∃ tid ∈ slotTypes, ∃ s,
    b.Has c (typeFromId tid) s ∧ boardSlot (ownerOf c p) tid (frameSq p s) = i := by
  simp only [boardSlots, List.mem_flatMap, List.mem_map, Bitboard.mem_squares, mem_piecesOf]

theorem mem_handSlots : i ∈ handSlots b p c ↔ ∃ h < kHandKinds, ∃ k,
    (1 ≤ k ∧ k ≤ (b.hand c).count (handKindType h)) ∧ handSlot (ownerOf c p) h k = i := by
  simp only [handSlots, List.mem_flatMap, List.mem_map, List.mem_range, List.mem_range'_1,
    Nat.add_comm 1, Nat.lt_succ_iff]

theorem nodup_boardSlots : (boardSlots b p c).Nodup := by
  refine nodup_flatMap_map List.nodup_range' (fun _ _ => Bitboard.nodup_squares _) ?_
  intro tid htid s _ tid' htid' s' _ heq
  obtain ⟨-, ht, hs⟩ := boardSlot_inj (mem_slotTypes.mp htid).2 (mem_slotTypes.mp htid').2 heq
  exact ⟨ht, frameSq_inj.mp hs⟩

theorem nodup_handSlots (hset : b.WithinSet) : (handSlots b p c).Nodup := by
  refine nodup_flatMap_map List.nodup_range (fun _ _ => List.nodup_range') ?_
  intro h hh k hk h' hh' k' hk' heq
  rw [List.mem_range] at hh hh'
  rw [List.mem_range'_1] at hk hk'
  have hmax := count_le_kHandMax hset c hh
  have hmax' := count_le_kHandMax hset c hh'
  obtain ⟨-, hkind, hcount⟩ := handSlot_inj hh ⟨hk.1, by omega⟩ hh' ⟨hk'.1, by omega⟩ heq
  exact ⟨hkind, hcount⟩

/-- The slots of both owners in the frame of `p`. -/
def slots (b : ShogiBoard) (p : Color) : List Nat :=
  colors.flatMap fun c => boardSlots b p c ++ handSlots b p c

theorem kHandSlots_le_boardSlot (owner tid : Nat) (s : Square) :
    kHandSlots ≤ boardSlot owner tid s := by
  rw [boardSlot]
  omega

theorem lt_of_mem_boardSlots (hi : i ∈ boardSlots b p c) : kHandSlots ≤ i ∧ i < kNumSlots := by
  obtain ⟨tid, htid, s, -, rfl⟩ := mem_boardSlots.mp hi
  exact ⟨kHandSlots_le_boardSlot _ _ _, boardSlot_lt (mem_slotTypes.mp htid).2 _⟩

theorem lt_of_mem_handSlots (hset : b.WithinSet) (hi : i ∈ handSlots b p c) : i < kHandSlots := by
  obtain ⟨h, hh, k, hk, rfl⟩ := mem_handSlots.mp hi
  exact handSlot_lt hh ⟨hk.1, hk.2.trans (count_le_kHandMax hset c hh)⟩

/-- A slot decides its owner. -/
theorem owner_of_slot (hset : b.WithinSet) (hi : i ∈ boardSlots b p c ++ handSlots b p c)
    (hi' : i ∈ boardSlots b p c' ++ handSlots b p c') : c = c' := by
  rcases List.mem_append.mp hi with hi | hi <;> rcases List.mem_append.mp hi' with hi' | hi'
  · obtain ⟨tid, htid, s, -, rfl⟩ := mem_boardSlots.mp hi
    obtain ⟨tid', htid', s', -, heq⟩ := mem_boardSlots.mp hi'
    exact (boardSlot_inj (mem_slotTypes.mp htid).2 (mem_slotTypes.mp htid').2 heq.symm).1
  · exact absurd (lt_of_mem_handSlots hset hi') (not_lt.mpr (lt_of_mem_boardSlots hi).1)
  · exact absurd (lt_of_mem_handSlots hset hi) (not_lt.mpr (lt_of_mem_boardSlots hi').1)
  · obtain ⟨h, hh, k, hk, rfl⟩ := mem_handSlots.mp hi
    obtain ⟨h', hh', k', hk', heq⟩ := mem_handSlots.mp hi'
    exact (handSlot_inj hh ⟨hk.1, hk.2.trans (count_le_kHandMax hset c hh)⟩ hh'
      ⟨hk'.1, hk'.2.trans (count_le_kHandMax hset c' hh')⟩ heq.symm).1

theorem nodup_slotsOf (hset : b.WithinSet) : (boardSlots b p c ++ handSlots b p c).Nodup := by
  refine List.nodup_append.mpr ⟨nodup_boardSlots, nodup_handSlots hset, ?_⟩
  intro i hi i' hi' heq
  have h1 := (lt_of_mem_boardSlots hi).1
  have h2 := lt_of_mem_handSlots hset hi'
  omega

theorem nodup_colors : colors.Nodup := by decide

theorem nodup_slots (hset : b.WithinSet) : (slots b p).Nodup := by
  have h := @nodup_flatMap_map _ _ _ colors (fun c => boardSlots b p c ++ handSlots b p c)
    (fun _ i => i) nodup_colors (fun _ _ => nodup_slotsOf hset)
    fun c _ i hi c' _ i' hi' heq => ⟨owner_of_slot hset hi (heq ▸ hi'), heq⟩
  simp only [List.map_id'] at h
  exact h

theorem lt_of_mem_slots (hset : b.WithinSet) (hi : i ∈ slots b p) : i < kNumSlots := by
  obtain ⟨c, -, hi⟩ := List.mem_flatMap.mp hi
  rcases List.mem_append.mp hi with hi | hi
  · exact (lt_of_mem_boardSlots hi).2
  · exact (lt_of_mem_handSlots hset hi).trans (by decide)

theorem length_slots : (slots b p).length =
    menCount b .black + handCount b .black + (menCount b .white + handCount b .white) := by
  rw [slots, colors]
  simp only [List.flatMap_cons, List.flatMap_nil, List.append_nil, List.length_append,
    length_boardSlots, length_handSlots]

theorem length_slots_le (ha : b.Agree) (hset : b.WithinSet) : (slots b p).length ≤ 38 := by
  have hle := slotCount_le ha hset
  rw [length_slots]
  omega

/-- The slots as rows of the table of group A, whatever the base. -/
theorem fits_slots (ha : b.Agree) (hset : b.WithinSet) (b' : ShogiBoard) :
    Fits ((slots b p).map (kingBase b' p + ·)) kGroupAInputs 38 where
  lt i hi := by
    obtain ⟨j, hj, rfl⟩ := List.mem_map.mp hi
    exact kingBase_add_lt (lt_of_mem_slots hset hj)
  nodup := (nodup_slots hset).map fun _ _ h => Nat.add_left_cancel h
  length_le := by
    rw [List.length_map]
    exact length_slots_le ha hset

theorem Fits.sublist {l l' : List Nat} {n m m' : Nat} (h : Fits l n m) (hl : l'.Sublist l)
    (hm : m ≤ m') : Fits l' n m' :=
  ⟨fun i hi => h.lt i (hl.mem hi), hl.nodup h.nodup, hl.length_le.trans (h.length_le.trans hm)⟩

theorem groupAFeatures_eq : groupAFeatures b p = (slots b p).map (kingBase b p + ·) := by
  rw [groupAFeatures, slots, List.map_flatMap]

/-! ## Threats -/

theorem mem_threats {t : Threat} : t ∈ threats b c ↔ t.tid < kTypeIds ∧
    b.Has c (typeFromId t.tid) t.src ∧
      Attacks (typeFromId t.tid) c (· ∈ b.occupied) t.src t.dst ∧ t.dst ∈ b.occupied := by
  simp only [threats, List.mem_flatMap, List.mem_map, List.mem_range, Bitboard.mem_squares,
    mem_piecesOf, Bitboard.mem_and, mem_pieceAttacks]
  constructor
  · rintro ⟨tid, htid, src, hsrc, dst, hdst, rfl⟩
    exact ⟨htid, hsrc, hdst⟩
  · rintro ⟨htid, hsrc, hdst⟩
    exact ⟨_, htid, _, hsrc, _, hdst, rfl⟩

theorem nodup_threats : (threats b c).Nodup := by
  rw [threats, List.nodup_flatMap]
  refine ⟨fun tid _ => ?_, ?_⟩
  · refine nodup_flatMap_map (Bitboard.nodup_squares _) (fun _ _ => Bitboard.nodup_squares _) ?_
    intro src _ dst _ src' _ dst' _ h
    rw [Threat.mk.injEq] at h
    exact h.2
  · refine List.nodup_range.imp fun {tid tid'} hne t ht ht' => ?_
    simp only [List.mem_flatMap, List.mem_map] at ht ht'
    obtain ⟨_, -, _, -, rfl⟩ := ht
    obtain ⟨_, -, _, -, h⟩ := ht'
    rw [Threat.mk.injEq] at h
    exact hne h.1.symm

theorem reach_ownSq {pt : PieceType} {s t : Square} :
    Reach pt .black (ownSq c s) (ownSq c t) ↔ Reach pt c s t := by
  cases c
  · exact Iff.rfl
  · exact reach_flipped (c := .white)

/-- Every pair that is looked up is in the table. -/
theorem pair_mem {t : Threat} (ht : t ∈ threats b c) :
    ownSq c t.dst ∈ emptyBoardReach t.tid (ownSq c t.src) :=
  mem_emptyBoardReach.mpr (reach_ownSq.mpr (mem_threats.mp ht).2.2.1.1)

theorem targetClass_lt (b : ShogiBoard) (s : Square) : targetClass b s < kThreatClasses := by
  have hclass : ∀ tid, threatClass tid ≤ 7 := by
    intro tid
    rw [threatClass.eq_def]
    split <;> decide
  have hle := hclass (typeId (b.board s).type)
  rw [targetClass, kThreatClasses]
  split <;> omega

theorem threatRow_lt {t : Threat} (ht : t ∈ threats b c) :
    kNumSlots ≤ threatRow b c t ∧ threatRow b c t < kGroupBInputs := by
  have ho : ownerOf c b.sideToMove < 2 := ownerOf_lt
  have hpair := pairIndex_lt (mem_threats.mp ht).1 (pair_mem ht)
  have hclass := targetClass_lt b t.dst
  rw [threatRow, kGroupBInputs, kThreatInputs]
  rw [kPairsPerOwner] at *
  rw [kThreatClasses] at *
  omega

/-- The row of a threat decides it. -/
theorem threatRow_inj {t t' : Threat} (ht : t ∈ threats b c) (ht' : t' ∈ threats b c')
    (h : threatRow b c t = threatRow b c' t') : c = c' ∧ t = t' := by
  have hpair := pairIndex_lt (mem_threats.mp ht).1 (pair_mem ht)
  have hpair' := pairIndex_lt (mem_threats.mp ht').1 (pair_mem ht')
  have hclass := targetClass_lt b t.dst
  have hclass' := targetClass_lt b t'.dst
  rw [threatRow, threatRow] at h
  rw [kPairsPerOwner] at *
  rw [kThreatClasses] at *
  have hc : c = c' := ownerOf_inj (p := b.sideToMove) (by omega)
  subst hc
  obtain ⟨htid, hsrc, hdst⟩ := pairIndex_inj (pair_mem ht) (pair_mem ht') (by omega)
  obtain ⟨tid, src, dst⟩ := t
  obtain ⟨tid', src', dst'⟩ := t'
  exact ⟨rfl, Threat.mk.injEq .. ▸ ⟨htid, frameSq_inj.mp hsrc, frameSq_inj.mp hdst⟩⟩

/-- Group B. -/
theorem fits_groupB (ha : b.Agree) (hset : b.WithinSet) :
    Fits (groupBFeatures b) kGroupBInputs kMaxActiveB where
  lt i hi := by
    obtain ⟨c, -, hi⟩ := List.mem_flatMap.mp hi
    rcases List.mem_append.mp hi with hi | hi
    · have hlt := lt_of_mem_slots hset (List.mem_flatMap_of_mem (by cases c <;> decide) hi)
      exact hlt.trans_le (Nat.le_add_right _ _)
    · obtain ⟨t, ht, rfl⟩ := List.mem_map.mp hi
      exact (threatRow_lt ht).2
  nodup := by
    have hslot : ∀ c, ∀ i ∈ boardSlots b b.sideToMove c ++ handSlots b b.sideToMove c,
        i < kNumSlots := fun c i hi =>
      lt_of_mem_slots hset (List.mem_flatMap_of_mem (by cases c <;> decide) hi)
    have hthreat : ∀ c, ∀ i ∈ (threats b c).map (threatRow b c), kNumSlots ≤ i := by
      intro c i hi
      obtain ⟨t, ht, rfl⟩ := List.mem_map.mp hi
      exact (threatRow_lt ht).1
    have h := @nodup_flatMap_map _ _ _ colors (fun c => boardSlots b b.sideToMove c ++
      handSlots b b.sideToMove c ++ (threats b c).map (threatRow b c)) (fun _ i => i) nodup_colors
      (fun c _ => ?_) fun c _ i hi c' _ i' hi' heq => ⟨?_, heq⟩
    · simp only [List.map_id'] at h
      exact h
    · refine List.nodup_append.mpr ⟨nodup_slotsOf hset, ?_, fun i hi i' hi' heq => ?_⟩
      · exact nodup_threats.map_on fun t ht t' ht' h => (threatRow_inj ht ht' h).2
      · have h1 := hslot c i hi
        have h2 := hthreat c i' hi'
        omega
    · subst heq
      rcases List.mem_append.mp hi with hi | hi <;> rcases List.mem_append.mp hi' with hi' | hi'
      · exact owner_of_slot hset hi hi'
      · exact absurd (hslot c i hi) (not_lt.mpr (hthreat c' i hi'))
      · exact absurd (hslot c' i hi') (not_lt.mpr (hthreat c i hi))
      · obtain ⟨t, ht, rfl⟩ := List.mem_map.mp hi
        obtain ⟨t', ht', heq⟩ := List.mem_map.mp hi'
        exact (threatRow_inj ht ht' heq.symm).1
  length_le := by
    have hslots := slotCount_le ha hset
    have hblack := length_threats_le ha .black
    have hwhite := length_threats_le ha .white
    rw [groupBFeatures, colors, kMaxActiveB]
    simp only [List.flatMap_cons, List.flatMap_nil, List.append_nil, List.length_append,
      List.length_map, length_boardSlots, length_handSlots]
    omega

/-! ## Policy -/

/-- The slot of a man in the inputs of the policy, without its flags. -/
def policySlot (owner tid : Nat) (s : Square) : Nat := (owner * kTypeIds + tid) * 81 + s.val

/-- The men of colour `c` in `PolicyFeatures`. -/
def policyMen (b : ShogiBoard) (c : Color) : List Nat :=
  (List.range kTypeIds).flatMap fun tid => (b.piecesOf c (typeFromId tid)).squares.map fun s =>
    policySlot (ownerOf c b.sideToMove) tid (frameSq b.sideToMove s) + kBoardSlots * policyFlags b s

theorem policyFeatures_eq : policyFeatures b = colors.flatMap fun c =>
    policyMen b c ++ (handSlots b b.sideToMove c).map (kPolicyBoardInputs + ·) := rfl

theorem mem_policyMen : i ∈ policyMen b c ↔ ∃ tid < kTypeIds, ∃ s, b.Has c (typeFromId tid) s ∧
    policySlot (ownerOf c b.sideToMove) tid (frameSq b.sideToMove s) +
      kBoardSlots * policyFlags b s = i := by
  simp only [policyMen, List.mem_flatMap, List.mem_map, List.mem_range, Bitboard.mem_squares,
    mem_piecesOf]

theorem policySlot_lt (htid : tid < kTypeIds) (s : Square) :
    policySlot (ownerOf c p) tid s < kBoardSlots := by
  have ho : ownerOf c p < 2 := ownerOf_lt
  have hs := s.isLt
  rw [policySlot, kBoardSlots]
  rw [kTypeIds] at *
  omega

/-- Flags do not blur the slots. -/
theorem policySlot_inj {f f' : Nat} (htid : tid < kTypeIds) (htid' : tid' < kTypeIds)
    (h : policySlot (ownerOf c p) tid s + kBoardSlots * f =
      policySlot (ownerOf c' p) tid' s' + kBoardSlots * f') : c = c' ∧ tid = tid' ∧ s = s' := by
  have hlt : policySlot (ownerOf c p) tid s < kBoardSlots := policySlot_lt htid s
  have hlt' : policySlot (ownerOf c' p) tid' s' < kBoardSlots := policySlot_lt htid' s'
  have hslot : policySlot (ownerOf c p) tid s = policySlot (ownerOf c' p) tid' s' := by
    have hmod := congrArg (· % kBoardSlots) h
    simp only [Nat.add_mul_mod_self_left, Nat.mod_eq_of_lt hlt, Nat.mod_eq_of_lt hlt'] at hmod
    exact hmod
  refine boardSlot_inj htid htid' (?_ : boardSlot (ownerOf c p) tid s = boardSlot _ tid' s')
  rw [policySlot, policySlot] at hslot
  rw [boardSlot, boardSlot]
  omega

theorem lt_of_mem_policyMen (hi : i ∈ policyMen b c) : i < kPolicyBoardInputs := by
  obtain ⟨tid, htid, s, -, rfl⟩ := mem_policyMen.mp hi
  have hlt : policySlot (ownerOf c b.sideToMove) tid (frameSq b.sideToMove s) < kBoardSlots :=
    policySlot_lt htid _
  have hflags : policyFlags b s ≤ 3 := by
    rw [policyFlags]
    split <;> split <;> omega
  rw [kPolicyBoardInputs]
  rw [show kBoardSlots = 2268 from rfl] at *
  omega

theorem length_policyMen_le (ha : b.Agree) : (policyMen b c).length ≤ menCount b c + 1 := by
  have hking := kingCount_le ha c
  have htypes : List.range kTypeIds = 0 :: slotTypes := rfl
  rw [policyMen, htypes, List.length_flatMap, List.map_cons, List.sum_cons, menCount]
  simp only [List.length_map, Bitboard.popCount] at hking ⊢
  rw [show typeFromId 0 = .king from rfl]
  omega

theorem nodup_policyMen : (policyMen b c).Nodup := by
  refine nodup_flatMap_map List.nodup_range (fun _ _ => Bitboard.nodup_squares _) ?_
  intro tid htid s _ tid' htid' s' _ heq
  obtain ⟨-, ht, hs⟩ := policySlot_inj (List.mem_range.mp htid) (List.mem_range.mp htid') heq
  exact ⟨ht, frameSq_inj.mp hs⟩

/-- The inputs of the policy. -/
theorem fits_policy (ha : b.Agree) (hset : b.WithinSet) :
    Fits (policyFeatures b) kPolicyInputs kMaxActivePolicy where
  lt i hi := by
    rw [policyFeatures_eq] at hi
    obtain ⟨c, -, hi⟩ := List.mem_flatMap.mp hi
    rcases List.mem_append.mp hi with hi | hi
    · exact (lt_of_mem_policyMen hi).trans_le (Nat.le_add_right _ _)
    · obtain ⟨j, hj, rfl⟩ := List.mem_map.mp hi
      exact Nat.add_lt_add_left (lt_of_mem_handSlots hset hj) _
  nodup := by
    have hhand : ∀ c, ∀ i ∈ (handSlots b b.sideToMove c).map (kPolicyBoardInputs + ·),
        kPolicyBoardInputs ≤ i := by
      intro c i hi
      obtain ⟨j, -, rfl⟩ := List.mem_map.mp hi
      exact Nat.le_add_right _ _
    have h := @nodup_flatMap_map _ _ _ colors (fun c => policyMen b c ++
      (handSlots b b.sideToMove c).map (kPolicyBoardInputs + ·)) (fun _ i => i) nodup_colors
      (fun c _ => ?_) fun c _ i hi c' _ i' hi' heq => ⟨?_, heq⟩
    · simp only [List.map_id'] at h
      exact h
    · refine List.nodup_append.mpr ⟨nodup_policyMen, ?_, fun i hi i' hi' heq => ?_⟩
      · exact (nodup_handSlots hset).map fun _ _ h => Nat.add_left_cancel h
      · have h1 := lt_of_mem_policyMen hi
        have h2 := hhand c i' hi'
        omega
    · subst heq
      rcases List.mem_append.mp hi with hi | hi <;> rcases List.mem_append.mp hi' with hi' | hi'
      · obtain ⟨tid, htid, s, -, rfl⟩ := mem_policyMen.mp hi
        obtain ⟨tid', htid', s', -, heq⟩ := mem_policyMen.mp hi'
        exact (policySlot_inj htid htid' heq.symm).1
      · exact absurd (lt_of_mem_policyMen hi) (not_lt.mpr (hhand c' i hi'))
      · exact absurd (lt_of_mem_policyMen hi') (not_lt.mpr (hhand c i hi))
      · obtain ⟨j, hj, rfl⟩ := List.mem_map.mp hi
        obtain ⟨j', hj', heq⟩ := List.mem_map.mp hi'
        obtain rfl := Nat.add_left_cancel heq
        exact owner_of_slot hset (List.mem_append_right _ hj) (List.mem_append_right _ hj')
  length_le := by
    have hslots := slotCount_le ha hset
    have hblack : (policyMen b .black).length ≤ menCount b .black + 1 := length_policyMen_le ha
    have hwhite : (policyMen b .white).length ≤ menCount b .white + 1 := length_policyMen_le ha
    rw [policyFeatures_eq, colors, kMaxActivePolicy]
    simp only [List.flatMap_cons, List.flatMap_nil, List.append_nil, List.length_append,
      List.length_map, length_handSlots]
    omega

/-! ## Differences -/

variable {d : GroupADiff} {st : FrameState} {x y : DiffPass}

/-- The rows that a state has for the entry of a pass. -/
def passRows (b : ShogiBoard) (p : Color) (st : FrameState) : DiffPass → List Nat
  | .pieces c tid => boardRows b p c tid (st.pieces (ownerOf c p, tid))
  | .hand c h => handRows b p c h 1 (st.hand (ownerOf c p, h)).toNat

/-- The rows of all entries of a state that remembers a board. -/
theorem FrameState.Remembers.passRows_eq {b' : ShogiBoard} (hst : st.Remembers b' p) :
    diffPasses.flatMap (passRows b p st) = (slots b' p).map (kingBase b p + ·) := by
  rw [diffPasses, slots, List.map_flatMap, List.flatMap_assoc]
  congr 1
  funext c
  rw [List.flatMap_append, List.map_append, List.flatMap_map, List.flatMap_map, boardSlots,
    handSlots, List.map_flatMap, List.map_flatMap]
  congr 1
  · refine List.flatMap_congr fun tid htid => ?_
    rw [passRows, hst.1 c tid htid, Nnue.boardRows, List.map_map]
    rfl
  · refine List.flatMap_congr fun h hh => ?_
    rw [passRows, hst.2 c h (List.mem_range.mp hh), Nnue.handRows, List.map_map]
    rfl

theorem boardRows_sublist (b : ShogiBoard) (p c : Color) (tid : Nat) (diff bb : Bitboard) :
    (boardRows b p c tid (diff &&& bb)).Sublist (boardRows b p c tid bb) := by
  refine List.Sublist.map _ (List.monotone_filter_right _ fun s hs => ?_)
  rw [Bitboard.test_iff] at hs ⊢
  exact (Bitboard.mem_and.mp hs).2

theorem handRows_sublist (b : ShogiBoard) (p c : Color) (h n k : Nat) :
    (handRows b p c h (n + 1) (k - n)).Sublist (handRows b p c h 1 k) := by
  refine List.Sublist.map _ ?_
  rcases Nat.le_total n k with hle | hle
  · obtain ⟨m, rfl⟩ := Nat.exists_eq_add_of_le hle
    rw [Nat.add_sub_cancel_left, ← List.range'_append_1, Nat.add_comm 1 n]
    exact List.sublist_append_right _ _
  · rw [Nat.sub_eq_zero_of_le hle]
    exact List.nil_sublist _

/-- What a pass notes: rows of its entry, after it and before it. -/
theorem diffPass_rows (b : ShogiBoard) (p : Color) (d : GroupADiff) (x : DiffPass) :
    ∃ added removed, added.Sublist (passRows b p (diffPass b p d x).state x) ∧
      removed.Sublist (passRows b p d.state x) ∧
      (diffPass b p d x).adds = d.adds ++ added ∧ (diffPass b p d x).subs = d.subs ++ removed := by
  cases x with
  | pieces c tid =>
    rw [passRows, passRows, diffPass, diffPieces_pieces, Function.update_self, diffPieces]
    simp only
    split
    · exact ⟨[], [], List.nil_sublist _, List.nil_sublist _, (List.append_nil _).symm,
        (List.append_nil _).symm⟩
    · exact ⟨_, _, boardRows_sublist _ _ _ _ _ _, boardRows_sublist _ _ _ _ _ _, rfl, rfl⟩
  | hand c h =>
    have hsettled := settled_diffPass (b := b) (p := p) (d := d) (.hand c h)
    rw [DiffPass.Settled] at hsettled
    rw [passRows, passRows, hsettled]
    exact ⟨_, _, handRows_sublist _ _ _ _ _ _, handRows_sublist _ _ _ _ _ _, rfl, rfl⟩

/-- A pass leaves the other entries. -/
theorem passRows_diffPass_of_ne (hxy : y ≠ x) :
    passRows b p (diffPass b p d x).state y = passRows b p d.state y := by
  cases x with
  | pieces c tid =>
    cases y with
    | pieces c' tid' =>
      have hne : (ownerOf c' p, tid') ≠ (ownerOf c p, tid) := by
        intro h
        rw [Prod.mk.injEq] at h
        exact hxy (by rw [ownerOf_inj h.1, h.2])
      rw [passRows, passRows, diffPass, diffPieces_pieces, Function.update_of_ne hne]
    | hand c' h' => rw [passRows, passRows, diffPass, diffPieces_hand]
  | hand c k =>
    cases y with
    | pieces c' tid' => rfl
    | hand c' k' =>
      have hne : (ownerOf c' p, k') ≠ (ownerOf c p, k) := by
        intro h
        rw [Prod.mk.injEq] at h
        exact hxy (by rw [ownerOf_inj h.1, h.2])
      rw [passRows, passRows, diffPass, diffHand]
      simp only [Function.update_of_ne hne]

/-- Passes over different entries take out rows of the first state and put in rows of the last. -/
theorem diffPasses_rows (b : ShogiBoard) (p : Color) (l : List DiffPass) (hl : l.Nodup)
    (d : GroupADiff) :
    (l.foldl (diffPass b p) d).adds.Sublist
        (d.adds ++ l.flatMap (passRows b p (l.foldl (diffPass b p) d).state)) ∧
      (l.foldl (diffPass b p) d).subs.Sublist (d.subs ++ l.flatMap (passRows b p d.state)) ∧
      ∀ y ∉ l, passRows b p (l.foldl (diffPass b p) d).state y = passRows b p d.state y := by
  induction l generalizing d with
  | nil =>
    refine ⟨?_, ?_, fun _ _ => rfl⟩ <;>
      · rw [List.flatMap_nil, List.append_nil]
        exact List.Sublist.refl _
  | cons x l ih =>
    obtain ⟨hx, hl⟩ := List.nodup_cons.mp hl
    obtain ⟨hadds, hsubs, hkeep⟩ := ih hl (diffPass b p d x)
    obtain ⟨added, removed, ha, hr, hadds', hsubs'⟩ := diffPass_rows b p d x
    have hrest : l.flatMap (passRows b p (diffPass b p d x).state) =
        l.flatMap (passRows b p d.state) :=
      List.flatMap_congr fun y hy => passRows_diffPass_of_ne fun h => hx (h ▸ hy)
    rw [List.foldl_cons]
    refine ⟨?_, ?_, fun y hy => ?_⟩
    · rw [List.flatMap_cons, hkeep x hx, ← List.append_assoc]
      refine hadds.trans (List.Sublist.append_right ?_ _)
      rw [hadds']
      exact List.Sublist.append_left ha _
    · rw [List.flatMap_cons, ← List.append_assoc, ← hrest]
      refine hsubs.trans (List.Sublist.append_right ?_ _)
      rw [hsubs']
      exact List.Sublist.append_left hr _
    · rw [List.mem_cons, not_or] at hy
      rw [hkeep y hy.2, passRows_diffPass_of_ne hy.1]

theorem nodup_diffPasses : diffPasses.Nodup := by
  have hpieces : ∀ c, (slotTypes.map (DiffPass.pieces c)).Nodup := fun c =>
    List.Nodup.map (fun _ _ h => (DiffPass.pieces.inj h).2) List.nodup_range'
  have hhand : ∀ c, ((List.range kHandKinds).map (DiffPass.hand c)).Nodup := fun c =>
    List.Nodup.map (fun _ _ h => (DiffPass.hand.inj h).2) List.nodup_range
  rw [diffPasses, List.nodup_flatMap]
  refine ⟨fun c _ => List.nodup_append.mpr ⟨hpieces c, hhand c, ?_⟩, ?_⟩
  · intro x hx y hy heq
    obtain ⟨tid, -, rfl⟩ := List.mem_map.mp hx
    obtain ⟨h, -, rfl⟩ := List.mem_map.mp hy
    cases heq
  · refine nodup_colors.imp fun {c c'} hne x hx hx' => ?_
    simp only [List.mem_append, List.mem_map] at hx hx'
    rcases hx with ⟨_, -, rfl⟩ | ⟨_, -, rfl⟩ <;> rcases hx' with ⟨_, -, h⟩ | ⟨_, -, h⟩ <;> cases h <;>
      exact hne rfl

/-- The lists of the difference to a board of which the state tells. -/
theorem fits_diff {b' : ShogiBoard} (ha : b.Agree) (hset : b.WithinSet) (ha' : b'.Agree)
    (hset' : b'.WithinSet) (hst : st.Remembers b' p) :
    Fits (groupADiff b p st).adds kGroupAInputs 38 ∧
      Fits (groupADiff b p st).subs kGroupAInputs 38 := by
  obtain ⟨hadds, hsubs, -⟩ := diffPasses_rows b p diffPasses nodup_diffPasses ⟨st, [], []⟩
  have hstate : (diffPasses.foldl (diffPass b p) ⟨st, [], []⟩).state.Remembers b p :=
    (groupADiff_state b p st).1
  rw [hstate.passRows_eq, List.nil_append] at hadds
  rw [hst.passRows_eq, List.nil_append] at hsubs
  exact ⟨(fits_slots ha hset b).sublist hadds le_rfl,
    (fits_slots ha' hset' b).sublist hsubs le_rfl⟩

/-- A new state tells of the empty board. -/
theorem remembers_new (p : Color) : FrameState.new.Remembers .new p := by
  have hhand : ∀ pt, (0#8).toNat = Hand.empty.count pt := by
    intro pt
    cases pt <;> rfl
  refine ⟨fun c tid _ => Bitboard.ext_mem fun s => ?_, fun c h _ => hhand _⟩
  rw [mem_piecesOf]
  exact iff_of_false Bitboard.not_mem_zero fun h => Bitboard.not_mem_zero h.1

/-- On a consistent board within the physical set all feature lists fit: those of group A in both
frames, group B, the policy, and the lists of the difference to any such board of which a state
tells. And every pair is looked up within the reach that the table has for it. -/
theorem features_fit (hb : b.Consistent) (hset : b.WithinSet) :
    (∀ p, Fits (groupAFeatures b p) kGroupAInputs kMaxActiveA) ∧
      Fits (groupBFeatures b) kGroupBInputs kMaxActiveB ∧
      Fits (policyFeatures b) kPolicyInputs kMaxActivePolicy ∧
      (∀ p st b', b'.Consistent → b'.WithinSet → FrameState.Remembers st b' p →
        Fits (groupADiff b p st).adds kGroupAInputs 128 ∧
          Fits (groupADiff b p st).subs kGroupAInputs 128) ∧
      ∀ c, ∀ t ∈ threats b c, ownSq c t.dst ∈ emptyBoardReach t.tid (ownSq c t.src) := by
  have ha := hb.toAgree
  refine ⟨fun p => ?_, fits_groupB ha hset, fits_policy ha hset, ?_, fun c t => pair_mem⟩
  · rw [groupAFeatures_eq]
    exact (fits_slots ha hset b).sublist (List.Sublist.refl _) (by decide)
  · intro p st b' hb' hset' hst
    obtain ⟨hadds, hsubs⟩ := fits_diff ha hset hb'.toAgree hset' hst
    exact ⟨hadds.sublist (List.Sublist.refl _) (by decide), hsubs.sublist (List.Sublist.refl _) (by decide)⟩

theorem withinSet_new : ShogiBoard.new.WithinSet := ⟨by decide +kernel, fun _ => Hand.clean_empty⟩

/-- Two kings, a gold and a pawn, with the difference to a new state. -/
theorem features_fit_goldMeetsPawn :
    Fits (groupBFeatures goldMeetsPawn) kGroupBInputs kMaxActiveB ∧
      Fits (policyFeatures goldMeetsPawn) kPolicyInputs kMaxActivePolicy ∧
      Fits (groupADiff goldMeetsPawn .black .new).adds kGroupAInputs 128 := by
  obtain ⟨-, hB, hP, hdiff, -⟩ := features_fit consistent_goldMeetsPawn withinSet_goldMeetsPawn
  exact ⟨hB, hP, (hdiff .black .new .new consistent_new withinSet_new (remembers_new .black)).1⟩

end Rows

end Nnue

end Shogi
