import ShogiEngine.Nnue.FeatureBounds
import ShogiEngine.Nnue.MoveBuckets
import ShogiEngine.Shogi.Evasions

/-!
# The tables of the move buckets

The three tables of `InitMoveBuckets` hold exactly the destinations that the rules allow on the empty
board, so that every legal move has its bucket.

## Main definitions

- `destTable`: the set of destinations that `MoveBucket` counts in
- `bucketKey`: what a bucket tells about a move

## Main results

- `mem_plainDest`, `mem_promoDest`, `mem_dropDest`: the tables in terms of the rules
- `buckets_total`: the checks in `InitMoveBuckets`
- `moveBucket_spec`: legal moves have buckets of their own
-/

namespace Shogi

namespace Nnue

open ShogiBoard

/-- The table that `MoveBucket` looks up. -/
def destTable (b : ShogiBoard) : Move → Bitboard
  | .drop pt _ => dropDest (pt.idx - 1)
  | .normal src _ => plainDest (typeId (b.board src).type) (ownSq b.sideToMove src)
  | .promotion src _ => promoDest (typeId (b.board src).type) (ownSq b.sideToMove src)

/-- What a bucket tells about a move: the type of the man as it stood on the board, its origin and
destination in its own frame and whether it promotes, or what is dropped where. -/
inductive BucketKey
  | board (type : PieceType) (src dst : Square) (promotion : Bool)
  | drop (kind : PieceType) (dst : Square)
  deriving DecidableEq

def bucketKey (b : ShogiBoard) : Move → BucketKey
  | .drop pt dst => .drop pt (ownSq b.sideToMove dst)
  | .normal src dst =>
    .board (b.board src).type (ownSq b.sideToMove src) (ownSq b.sideToMove dst) false
  | .promotion src dst =>
    .board (b.board src).type (ownSq b.sideToMove src) (ownSq b.sideToMove dst) true

/-- All tables, in the order of the offsets. -/
def bucketTable (i : Nat) : Bitboard :=
  if i < kTypeIds * 81 then plainDest (i / 81) (.fromIdx i)
  else if i < 2 * (kTypeIds * 81) then
    promoDest ((i - kTypeIds * 81) / 81) (.fromIdx (i - kTypeIds * 81))
  else dropDest (i - 2 * (kTypeIds * 81))

def bucketSize (i : Nat) : Nat := (bucketTable i).popCount

/-- The number of the table that `MoveBucket` looks up. -/
def bucketBlock (b : ShogiBoard) : Move → Nat
  | .drop pt _ => 2 * (kTypeIds * 81) + (pt.idx - 1)
  | .normal src _ => typeId (b.board src).type * 81 + (ownSq b.sideToMove src).val
  | .promotion src _ =>
    kTypeIds * 81 + (typeId (b.board src).type * 81 + (ownSq b.sideToMove src).val)

/-! ## What the tables hold -/

section Tables

variable {tid h : Nat} {pt : PieceType} {c : Color} {s t : Square}

/-- The squares where a black man may not stay. -/
theorem mustPromote_black : mustPromote pt .black t = true ↔
    (pt = .pawn ∨ pt = .lance) ∧ t.rank = 0 ∨ pt = .knight ∧ t.rank ≤ 1 := by
  cases pt with
  | knight =>
    have hnot : ¬ (PieceType.knight = .pawn ∨ PieceType.knight = .lance) := by decide
    rw [and_iff_right rfl, or_iff_right fun h => hnot h.1]
    exact decide_eq_true_iff
  | _ => simp [mustPromote, relativeRank]

/-- The type ids of the men that may not stay everywhere. -/
theorem typeFromId_eq (htid : tid < kTypeIds) :
    (tid = 1 ∨ tid = 2 ↔ typeFromId tid = .pawn ∨ typeFromId tid = .lance) ∧
      (tid = 3 ↔ typeFromId tid = .knight) ∧ (1 ≤ tid ∧ tid ≤ 6 ↔ (typeFromId tid).canPromote = true) := by
  have hall : ∀ tid < kTypeIds,
      (tid = 1 ∨ tid = 2 ↔ typeFromId tid = .pawn ∨ typeFromId tid = .lance) ∧
      (tid = 3 ↔ typeFromId tid = .knight) ∧ (1 ≤ tid ∧ tid ≤ 6 ↔ (typeFromId tid).canPromote = true) := by
    decide
  exact hall tid htid

/-- Plain moves stay within the reach and where the man can leave again. -/
theorem mem_plainDest (htid : tid < kTypeIds) : t ∈ plainDest tid s ↔
    Reach (typeFromId tid) .black s t ∧ mustPromote (typeFromId tid) .black t = false := by
  obtain ⟨hlast, hknight, -⟩ := typeFromId_eq htid
  rw [← Bool.not_eq_true, mustPromote_black, ← hlast, ← hknight, plainDest]
  split
  next h =>
    rw [Bitboard.mem_and, mem_emptyBoardReach, Bitboard.mem_compl, mem_rankBB]
    exact and_congr_right fun _ => not_congr (by omega)
  next h =>
    split
    next =>
      rw [Bitboard.mem_and, mem_emptyBoardReach, Bitboard.mem_compl, Bitboard.mem_or, mem_rankBB, mem_rankBB]
      exact and_congr_right fun _ => not_congr (by omega)
    next =>
      rw [mem_emptyBoardReach]
      exact (and_iff_left (by omega)).symm

/-- Promotions begin or end in the zone. -/
theorem mem_promoDest (htid : tid < kTypeIds) : t ∈ promoDest tid s ↔
    Reach (typeFromId tid) .black s t ∧ canPromote (typeFromId tid) .black s t = true := by
  rw [canPromote_iff, ← (typeFromId_eq htid).2.2, promoDest]
  split
  next hable =>
    rw [and_iff_right hable]
    split
    next hzone =>
      have hs : s.inPromotionZone .black = true := mem_promotionZoneBB.mp hzone
      rw [mem_emptyBoardReach]
      exact (and_iff_left (Or.inl hs)).symm
    next hzone =>
      have hs : ¬ s.inPromotionZone .black = true := fun h => hzone (mem_promotionZoneBB.mpr h)
      rw [Bitboard.mem_and, mem_emptyBoardReach, mem_promotionZoneBB, or_iff_right hs]
  next hable => exact iff_of_false Bitboard.not_mem_zero fun h => hable h.2.1

/-- Drops go where the man can leave again. -/
theorem mem_dropDest (hh : h < kHandKinds) :
    t ∈ dropDest h ↔ mustPromote (handKindType h) .black t = false := by
  have hkind : ∀ h < kHandKinds, (h = 0 ∨ h = 1 ↔ handKindType h = .pawn ∨ handKindType h = .lance) ∧
      (h = 2 ↔ handKindType h = .knight) := by decide
  obtain ⟨hlast, hknight⟩ := hkind h hh
  rw [← Bool.not_eq_true, mustPromote_black, ← hlast, ← hknight, dropDest]
  split
  next =>
    rw [Bitboard.mem_and, Bitboard.mem_compl, mem_rankBB, and_iff_right Bitboard.mem_all]
    exact not_congr (by omega)
  next =>
    split
    next =>
      rw [Bitboard.mem_and, Bitboard.mem_compl, Bitboard.mem_or, mem_rankBB, mem_rankBB,
        and_iff_right Bitboard.mem_all]
      exact not_congr (by omega)
    next => exact iff_of_true Bitboard.mem_all (by omega)

/-! ## The checks of the constructor -/

theorem popCount_plainDest (htid : tid < kTypeIds) : (plainDest tid s).popCount =
    ((landings (typeFromId tid) s).filter fun t => !mustPromote (typeFromId tid) .black t).length := by
  refine ((List.perm_ext_iff_of_nodup (Bitboard.nodup_squares _) (nodup_landings.filter _)).mpr ?_).length_eq
  intro t
  rw [Bitboard.mem_squares, mem_plainDest htid, List.mem_filter, mem_landings, Bool.not_eq_true']

theorem popCount_promoDest (htid : tid < kTypeIds) : (promoDest tid s).popCount =
    ((landings (typeFromId tid) s).filter fun t => canPromote (typeFromId tid) .black s t).length := by
  refine ((List.perm_ext_iff_of_nodup (Bitboard.nodup_squares _) (nodup_landings.filter _)).mpr ?_).length_eq
  intro t
  rw [Bitboard.mem_squares, mem_promoDest htid, List.mem_filter, mem_landings]

theorem popCount_dropDest (hh : h < kHandKinds) : (dropDest h).popCount =
    ((List.finRange 81).filter fun t : Square => !mustPromote (handKindType h) .black t).length := by
  refine ((List.perm_ext_iff_of_nodup (Bitboard.nodup_squares _)
    ((List.nodup_finRange 81).filter _)).mpr ?_).length_eq
  intro t
  rw [Bitboard.mem_squares, mem_dropDest hh, List.mem_filter, Bool.not_eq_true']
  exact (and_iff_right (List.mem_finRange t)).symm

/-- The three checks in `InitMoveBuckets`. -/
theorem buckets_total : plainBefore (kTypeIds * 81) = kPlainBuckets ∧
    promoBefore (kTypeIds * 81) = kPromoBuckets ∧ dropBefore kHandKinds = kDropBuckets := by
  have hdiv : ∀ i < kTypeIds * 81, i / 81 < kTypeIds := fun i hi => by
    rw [kTypeIds] at *
    omega
  rw [plainBefore, promoBefore, dropBefore, PrefixSums.before_congr fun i hi => popCount_plainDest (hdiv i hi),
    PrefixSums.before_congr fun i hi => popCount_promoDest (hdiv i hi),
    PrefixSums.before_congr fun h hh => popCount_dropDest hh]
  decide +kernel

end Tables

/-! ## Legal moves have buckets of their own -/

section Moves

variable {b : ShogiBoard} {m m' : Move} {pt : PieceType} {c : Color} {s t : Square}

theorem mustPromote_ownSq (hpt : pt.isValid = true) :
    mustPromote pt .black (ownSq c t) = false ↔ CanLeave pt c t := by
  rw [← canLeave_iff hpt]
  cases c
  · exact Iff.rfl
  · exact canLeave_flipped (c := .white)

theorem inPromotionZone_ownSq : (ownSq c s).inPromotionZone .black = s.inPromotionZone c := by
  cases c
  · rfl
  · exact inPromotionZone_flipped (c := .white)

/-- A man that goes somewhere has a type of the tables. -/
theorem type_of_goes (ha : b.Agree) (h : b.position.Goes pt s t) :
    (b.board s).type = pt ∧ pt.isValid = true :=
  ⟨Agree.type_of_men h.man, ha.isValid_of_men h.man⟩

/-- The destination of an allowed move is in its table. -/
theorem mem_destTable (ha : b.Agree) (h : b.position.Allowed m) : ownSq b.sideToMove m.dst ∈ destTable b m := by
  cases h with
  | normal goes stay =>
    obtain ⟨rfl, hvalid⟩ := type_of_goes ha goes
    refine (mem_plainDest (typeId_lt hvalid)).mpr ?_
    rw [typeFromId_typeId hvalid, reach_ownSq, mustPromote_ownSq hvalid]
    exact ⟨goes.attacks.1, stay⟩
  | promotion goes able zone =>
    obtain ⟨rfl, hvalid⟩ := type_of_goes ha goes
    refine (mem_promoDest (typeId_lt hvalid)).mpr ?_
    rw [typeFromId_typeId hvalid, reach_ownSq, canPromote_iff, inPromotionZone_ownSq, inPromotionZone_ownSq]
    exact ⟨goes.attacks.1, able, zone⟩
  | @drop pt t able held empty stay single =>
    have hkind : pt.idx - 1 < kHandKinds ∧ handKindType (pt.idx - 1) = pt ∧ pt.isValid = true := by
      revert able
      cases pt <;> decide
    refine (mem_dropDest hkind.1).mpr ?_
    rw [hkind.2.1, mustPromote_ownSq hkind.2.2]
    exact stay

/-- A man or a kind in hand has one of the tables. -/
inductive Tabled (b : ShogiBoard) : Move → Prop
  | normal {s t : Square} (valid : (b.board s).type.isValid = true) : Tabled b (.normal s t)
  | promotion {s t : Square} (valid : (b.board s).type.isValid = true) : Tabled b (.promotion s t)
  | drop {pt : PieceType} {t : Square} (able : pt.isHandPiece = true) : Tabled b (.drop pt t)

theorem tabled_of_allowed (ha : b.Agree) (h : b.position.Allowed m) : Tabled b m := by
  cases h with
  | normal goes stay =>
    obtain ⟨rfl, hvalid⟩ := type_of_goes ha goes
    exact .normal hvalid
  | promotion goes able zone =>
    obtain ⟨rfl, hvalid⟩ := type_of_goes ha goes
    exact .promotion hvalid
  | drop able held empty stay single => exact .drop able

/-- A square of a type as a number of a table. -/
theorem block_spec (hpt : pt.isValid = true) (s : Square) : typeId pt * 81 + s.val < kTypeIds * 81 ∧
    (typeId pt * 81 + s.val) / 81 = typeId pt ∧ Square.fromIdx (typeId pt * 81 + s.val) = s := by
  have hlt := typeId_lt hpt
  have hs := s.isLt
  rw [kTypeIds] at *
  refine ⟨by omega, by omega, Fin.ext ?_⟩
  rw [Square.fromIdx]
  dsimp only
  omega

theorem hand_idx (hpt : pt.isHandPiece = true) : pt.idx - 1 < kHandKinds ∧ handKindType (pt.idx - 1) = pt := by
  revert hpt
  cases pt <;> decide

/-- The offsets of the three kinds of tables. -/
theorem before_bucketSize : (∀ i ≤ kTypeIds * 81, PrefixSums.before bucketSize i = plainBefore i) ∧
    (∀ i ≤ kTypeIds * 81, PrefixSums.before bucketSize (kTypeIds * 81 + i) =
      plainBefore (kTypeIds * 81) + promoBefore i) ∧
    ∀ i ≤ kHandKinds, PrefixSums.before bucketSize (2 * (kTypeIds * 81) + i) =
      plainBefore (kTypeIds * 81) + promoBefore (kTypeIds * 81) + dropBefore i := by
  have hplain : ∀ i ≤ kTypeIds * 81, PrefixSums.before bucketSize i = plainBefore i := by
    intro i hi
    exact PrefixSums.before_congr fun j hj => congrArg Bitboard.popCount (if_pos (hj.trans_le hi))
  have hpromo : ∀ i ≤ kTypeIds * 81, PrefixSums.before bucketSize (kTypeIds * 81 + i) =
      plainBefore (kTypeIds * 81) + promoBefore i := by
    intro i hi
    rw [PrefixSums.before_append, hplain _ le_rfl]
    refine congrArg (plainBefore (kTypeIds * 81) + ·) (PrefixSums.before_congr fun j hj => ?_)
    rw [bucketSize, bucketTable, if_neg (by omega), if_pos (by omega), Nat.add_sub_cancel_left]
  refine ⟨hplain, hpromo, fun i hi => ?_⟩
  have htwo : PrefixSums.before bucketSize (2 * (kTypeIds * 81)) =
      plainBefore (kTypeIds * 81) + promoBefore (kTypeIds * 81) :=
    (congrArg (PrefixSums.before bucketSize) (two_mul _)).trans (hpromo _ le_rfl)
  rw [PrefixSums.before_append]
  refine congrArg₂ (· + ·) htwo (PrefixSums.before_congr fun j hj => ?_)
  rw [bucketSize, bucketTable, if_neg (by omega), if_neg (by omega), Nat.add_sub_cancel_left]

/-- A bucket is an offset of a table and the number of the destination there. -/
theorem moveBucket_eq (h : Tabled b m) : moveBucket b m =
      PrefixSums.before bucketSize (bucketBlock b m) + rankIn (destTable b m) (ownSq b.sideToMove m.dst) ∧
    bucketTable (bucketBlock b m) = destTable b m ∧
    bucketBlock b m < 2 * (kTypeIds * 81) + kHandKinds := by
  obtain ⟨hplain, hpromo, hdrop⟩ := before_bucketSize
  cases h with
  | @normal s t valid =>
    obtain ⟨hlt, hdiv, hsquare⟩ := block_spec valid (ownSq b.sideToMove s)
    refine ⟨?_, ?_, ?_⟩
    · exact congrArg (· + _) (hplain _ hlt.le).symm
    · rw [bucketBlock, bucketTable, if_pos hlt, hdiv, hsquare]
      rfl
    · rw [bucketBlock]
      omega
  | @promotion s t valid =>
    obtain ⟨hlt, hdiv, hsquare⟩ := block_spec valid (ownSq b.sideToMove s)
    refine ⟨?_, ?_, ?_⟩
    · exact congrArg (· + _) (hpromo _ hlt.le).symm
    · rw [bucketBlock, bucketTable, if_neg (by omega), if_pos (by omega), Nat.add_sub_cancel_left, hdiv,
        hsquare]
      rfl
    · rw [bucketBlock]
      omega
  | @drop pt t able =>
    obtain ⟨hlt, -⟩ := hand_idx able
    refine ⟨?_, ?_, ?_⟩
    · exact congrArg (· + _) (hdrop _ hlt.le).symm
    · rw [bucketBlock, bucketTable, if_neg (by omega), if_neg (by omega), Nat.add_sub_cancel_left]
      rfl
    · rw [bucketBlock]
      omega

/-- All tables together. -/
theorem before_bucketSize_total :
    PrefixSums.before bucketSize (2 * (kTypeIds * 81) + kHandKinds) = kNumBuckets := by
  obtain ⟨hplain, hpromo, hdrop⟩ := buckets_total
  rw [before_bucketSize.2.2 _ le_rfl, hplain, hpromo, hdrop]
  rfl

theorem moveBucket_lt (h : Tabled b m) (hmem : ownSq b.sideToMove m.dst ∈ destTable b m) :
    moveBucket b m < kNumBuckets := by
  obtain ⟨hbucket, htable, hblock⟩ := moveBucket_eq h
  rw [hbucket, ← before_bucketSize_total]
  refine PrefixSums.before_add_lt hblock ?_
  rw [bucketSize, htable]
  exact rankIn_lt hmem

/-- The number of a type's table tells the type and the square. -/
theorem block_inj {pt pt' : PieceType} (hpt : pt.isValid = true) (hpt' : pt'.isValid = true)
    (h : typeId pt * 81 + s.val = typeId pt' * 81 + t.val) : pt = pt' ∧ s = t := by
  have hs := s.isLt
  have ht := t.isLt
  have hid : typeId pt = typeId pt' := by omega
  refine ⟨?_, Fin.ext (by omega)⟩
  rw [← typeFromId_typeId hpt, hid, typeFromId_typeId hpt']

/-- The number of the table tells the type and the origin, or the kind. -/
theorem bucketKey_of_block (h : Tabled b m) (h' : Tabled b m') (hblock : bucketBlock b m = bucketBlock b m')
    (hdst : ownSq b.sideToMove m.dst = ownSq b.sideToMove m'.dst) : bucketKey b m = bucketKey b m' := by
  cases h with
  | @normal s t valid =>
    have hlt := (block_spec valid (ownSq b.sideToMove s)).1
    cases h' with
    | @normal s' t' valid' =>
      obtain ⟨htype, hsrc⟩ := block_inj valid valid' hblock
      exact BucketKey.board.injEq .. ▸ ⟨htype, hsrc, hdst, rfl⟩
    | @promotion s' t' valid' =>
      rw [bucketBlock, bucketBlock] at hblock
      omega
    | @drop pt' t' able' =>
      rw [bucketBlock, bucketBlock] at hblock
      omega
  | @promotion s t valid =>
    have hlt := (block_spec valid (ownSq b.sideToMove s)).1
    cases h' with
    | @normal s' t' valid' =>
      have hlt' := (block_spec valid' (ownSq b.sideToMove s')).1
      rw [bucketBlock, bucketBlock] at hblock
      omega
    | @promotion s' t' valid' =>
      obtain ⟨htype, hsrc⟩ := block_inj valid valid' (Nat.add_left_cancel hblock)
      exact BucketKey.board.injEq .. ▸ ⟨htype, hsrc, hdst, rfl⟩
    | @drop pt' t' able' =>
      rw [bucketBlock, bucketBlock] at hblock
      omega
  | @drop pt t able =>
    cases h' with
    | @normal s' t' valid' =>
      have hlt' := (block_spec valid' (ownSq b.sideToMove s')).1
      rw [bucketBlock, bucketBlock] at hblock
      omega
    | @promotion s' t' valid' =>
      have hlt' := (block_spec valid' (ownSq b.sideToMove s')).1
      rw [bucketBlock, bucketBlock] at hblock
      omega
    | @drop pt' t' able' =>
      have hkind : pt.idx - 1 = pt'.idx - 1 := Nat.add_left_cancel hblock
      have htype : pt = pt' := by rw [← (hand_idx able).2, hkind, (hand_idx able').2]
      exact BucketKey.drop.injEq .. ▸ ⟨htype, hdst⟩

/-- Moves with one key have the same table. -/
theorem destTable_of_key (h : bucketKey b m = bucketKey b m') : destTable b m = destTable b m' ∧
    bucketBlock b m = bucketBlock b m' ∧ ownSq b.sideToMove m.dst = ownSq b.sideToMove m'.dst := by
  cases m <;> cases m' <;>
    simp only [bucketKey, BucketKey.board.injEq, BucketKey.drop.injEq, reduceCtorEq, and_false] at h <;>
    simp only [destTable, bucketBlock, Move.dst, h, and_self]

/-- Buckets are the same only for moves with the same key. -/
theorem moveBucket_eq_iff (h : Tabled b m) (h' : Tabled b m')
    (hmem : ownSq b.sideToMove m.dst ∈ destTable b m) (hmem' : ownSq b.sideToMove m'.dst ∈ destTable b m') :
    moveBucket b m = moveBucket b m' ↔ bucketKey b m = bucketKey b m' := by
  obtain ⟨hbucket, htable, -⟩ := moveBucket_eq h
  obtain ⟨hbucket', htable', -⟩ := moveBucket_eq h'
  rw [hbucket, hbucket']
  constructor
  · intro hsame
    obtain ⟨hblock, hrank⟩ := PrefixSums.before_add_inj (by rw [bucketSize, htable]; exact rankIn_lt hmem)
      (by rw [bucketSize, htable']; exact rankIn_lt hmem') hsame
    -- the same table, and so the same destination
    have hsameTable : destTable b m = destTable b m' := by rw [← htable, hblock, htable']
    rw [hsameTable] at hmem hrank
    exact bucketKey_of_block h h' hblock (rankIn_inj hmem hmem' hrank)
  · intro hkey
    obtain ⟨hsameTable, hblock, hdst⟩ := destTable_of_key hkey
    rw [hsameTable, hblock, hdst]

end Moves

/-- A legal move's destination is in the table that `MoveBucket` looks up, its bucket is one of the table,
and two legal moves have one bucket only if they share type, origin, destination and promotion, or what
is dropped where. -/
theorem moveBucket_spec {b : ShogiBoard} (hb : b.Consistent) (hk : b.HasKings) :
    (∀ m ∈ b.generateLegalMoves, ownSq b.sideToMove m.dst ∈ destTable b m ∧ moveBucket b m < kNumBuckets) ∧
      ∀ m ∈ b.generateLegalMoves, ∀ m' ∈ b.generateLegalMoves,
        (moveBucket b m = moveBucket b m' ↔ bucketKey b m = bucketKey b m') := by
  have hallowed : ∀ m ∈ b.generateLegalMoves, b.position.Allowed m :=
    fun m hm => ((mem_generateLegalMoves hb hk).mp hm).allowed
  constructor
  · intro m hm
    have hmem := mem_destTable hb.toAgree (hallowed m hm)
    exact ⟨hmem, moveBucket_lt (tabled_of_allowed hb.toAgree (hallowed m hm)) hmem⟩
  · intro m hm m' hm'
    have h := hallowed m hm
    have h' := hallowed m' hm'
    exact moveBucket_eq_iff (tabled_of_allowed hb.toAgree h) (tabled_of_allowed hb.toAgree h')
      (mem_destTable hb.toAgree h) (mem_destTable hb.toAgree h')

theorem moveBucket_spec_goldEnding :
    (∀ m ∈ goldEnding.generateLegalMoves, ownSq goldEnding.sideToMove m.dst ∈ destTable goldEnding m ∧
        moveBucket goldEnding m < kNumBuckets) ∧
      ∀ m ∈ goldEnding.generateLegalMoves, ∀ m' ∈ goldEnding.generateLegalMoves,
        (moveBucket goldEnding m = moveBucket goldEnding m' ↔ bucketKey goldEnding m = bucketKey goldEnding m') :=
  moveBucket_spec consistent_goldEnding hasKings_goldEnding

end Nnue

end Shogi
