import ShogiEngine.Shogi.Setup
import ShogiEngine.Library.XorHash

/-!
# The incremental hash

`DoMove` keeps the hash that `ComputeHash` would compute. The argument follows the difference
between the two, which every elementary change of the board moves by one key.

## Main definitions

- `hashAfter`, `boardKey`, `boardKeyAfter`: the keys that the mate search predicts
- `hashDrift`: the stored hash against the hash from scratch

## Main results

- `hashDrift_doMoveInternal`: making a move in the full mode leaves the difference alone
- `predicted_keys`: the predicted keys are those of the board after the move
-/

namespace Shogi

namespace ShogiBoard

/-! ## Predicted keys -/

/-- The branch of `HashAfter` for a move on the board. -/
def hashAfterBoardMove (b : ShogiBoard) (s t : Square) (promotion : Bool) : BitVec 64 :=
  let us := b.sideToMove
  let captured := b.board t
  let h :=
    if !captured.isNone then
      b.hash ^^^ Zobrist.psq captured t ^^^ hashHand us (b.hand us) ^^^
        hashHand us ((b.hand us).add captured.type.unpromote)
    else b.hash
  h ^^^ Zobrist.psq (b.board s) s ^^^ Zobrist.psq (b.movedPiece s promotion) t

/-- `HashAfter`. -/
def hashAfter (b : ShogiBoard) (m : Move) : BitVec 64 :=
  let us := b.sideToMove
  let h :=
    match m with
    | .drop pt t =>
      b.hash ^^^ hashHand us (b.hand us) ^^^ hashHand us ((b.hand us).sub pt) ^^^
        Zobrist.psq ⟨us, pt⟩ t
    | .normal s t => b.hashAfterBoardMove s t false
    | .promotion s t => b.hashAfterBoardMove s t true
  h ^^^ Zobrist.side

/-- `BoardKey`: the position hash without the hands. -/
def boardKey (b : ShogiBoard) : BitVec 64 :=
  b.hash ^^^ hashHand .black (b.hand .black) ^^^ hashHand .white (b.hand .white)

/-- The branch of `BoardKeyAfter` for a move on the board. -/
def boardKeyAfterBoardMove (b : ShogiBoard) (s t : Square) (promotion : Bool) : BitVec 64 :=
  let captured := b.board t
  let h := if !captured.isNone then b.boardKey ^^^ Zobrist.psq captured t else b.boardKey
  h ^^^ Zobrist.psq (b.board s) s ^^^ Zobrist.psq (b.movedPiece s promotion) t

/-- `BoardKeyAfter`. -/
def boardKeyAfter (b : ShogiBoard) (m : Move) : BitVec 64 :=
  let h :=
    match m with
    | .drop pt t => b.boardKey ^^^ Zobrist.psq ⟨b.sideToMove, pt⟩ t
    | .normal s t => b.boardKeyAfterBoardMove s t false
    | .promotion s t => b.boardKeyAfterBoardMove s t true
  h ^^^ Zobrist.side

/-! ## The difference to the hash from scratch -/

/-- What a square contributes to the hash. -/
def manKey (pc : Piece) (s : Square) : BitVec 64 := if pc.isNone then 0#64 else Zobrist.psq pc s

/-- What the side to move contributes to the hash. -/
def sideKey : Color → BitVec 64
  | .black => 0#64
  | .white => Zobrist.side

/-- The difference between the stored hash and the hash from scratch. -/
def hashDrift (b : ShogiBoard) : BitVec 64 := b.hash ^^^ b.scratchHash

section Drift

variable {b : ShogiBoard}

theorem hash_eq_iff : b.hash = b.scratchHash ↔ b.hashDrift = 0#64 := by
  rw [hashDrift]
  constructor
  · intro h
    rw [h, BitVec.xor_self]
  · intro h
    rw [← BitVec.zero_xor (x := b.scratchHash), ← h, BitVec.xor_assoc, BitVec.xor_self,
      BitVec.xor_zero]

theorem scratchHash_eq : b.scratchHash =
    XorHash.fold (fun s => manKey (b.board s) s) (List.finRange 81) ^^^
      hashHand .black (b.hand .black) ^^^ hashHand .white (b.hand .white) ^^^
        sideKey b.sideToMove := by
  have hmen : ∀ (l : List Square) (z : BitVec 64), l.foldl (fun h s =>
      if !(b.board s).isNone then h ^^^ Zobrist.psq (b.board s) s else h) z =
      l.foldl (fun h s => h ^^^ manKey (b.board s) s) z := by
    intro l
    induction l with
    | nil => exact fun _ => rfl
    | cons s l ih =>
      intro z
      rw [List.foldl_cons, List.foldl_cons, ih]
      congr 1
      rw [manKey]
      by_cases h : (b.board s).isNone = true
      · simp [h]
      · simp [h]
  rw [scratchHash, hmen]
  cases b.sideToMove <;> simp [sideKey, XorHash.fold]

theorem hashDrift_xorHash {key : BitVec 64} :
    (b.xorHash true key).hashDrift = b.hashDrift ^^^ key := by
  have h : (b.xorHash true key).scratchHash = b.scratchHash := rfl
  rw [hashDrift, h, hashDrift, show (b.xorHash true key).hash = b.hash ^^^ key from rfl,
    BitVec.xor_assoc, BitVec.xor_assoc, BitVec.xor_comm key]

/-- A new man on a square exchanges the keys of that square. -/
theorem hashDrift_of_update {b' : ShogiBoard} {s : Square} {q : Piece}
    (hboard : b'.board = Function.update b.board s q) (hhash : b'.hash = b.hash)
    (hhand : b'.hand = b.hand) (hturn : b'.sideToMove = b.sideToMove) :
    b'.hashDrift = b.hashDrift ^^^ manKey (b.board s) s ^^^ manKey q s := by
  have hkeys : (fun x => manKey (b'.board x) x) =
      Function.update (fun x => manKey (b.board x) x) s (manKey q s) := by
    funext x
    rw [hboard]
    simp only [Function.update_apply]
    split
    · rename_i h
      rw [h]
    · rfl
  rw [hashDrift, hashDrift, scratchHash_eq, scratchHash_eq, hkeys, hhash, hhand, hturn,
    XorHash.fold_update (List.nodup_finRange 81) (List.mem_finRange s)]
  ac_rfl

theorem hashDrift_putPiece {s : Square} {q : Piece} :
    (b.putPiece s q).hashDrift = b.hashDrift ^^^ manKey (b.board s) s ^^^ manKey q s :=
  hashDrift_of_update rfl rfl rfl rfl

theorem hashDrift_removePiece {s : Square} :
    (b.removePiece s).hashDrift = b.hashDrift ^^^ manKey (b.board s) s := by
  have hboard : (b.removePiece s).board = Function.update b.board s .none := rfl
  rw [hashDrift_of_update hboard rfl rfl rfl]
  exact BitVec.xor_zero

theorem hashDrift_setHand {c : Color} {h : Hand} : (b.setHand c h).hashDrift =
    b.hashDrift ^^^ hashHand c (b.hand c) ^^^ hashHand c h := by
  have hcancel : ∀ x y z : BitVec 64, x ^^^ (y ^^^ z) = x ^^^ y ^^^ z :=
    fun x y z => (BitVec.xor_assoc x y z).symm
  have hself : ∀ x y : BitVec 64, x ^^^ y ^^^ y = x := fun x y => by
    rw [BitVec.xor_assoc, BitVec.xor_self, BitVec.xor_zero]
  rw [hashDrift, hashDrift, scratchHash_eq, scratchHash_eq]
  simp only [setHand]
  cases c
  · rw [Function.update_self, Function.update_of_ne (show Color.white ≠ .black by decide)]
    refine (hself _ (hashHand .black (b.hand .black))).symm.trans ?_
    ac_rfl
  · rw [Function.update_self, Function.update_of_ne (show Color.black ≠ .white by decide)]
    refine (hself _ (hashHand .white (b.hand .white))).symm.trans ?_
    ac_rfl

theorem manKey_of_ne_none {pc : Piece} {s : Square} (h : pc ≠ .none) :
    manKey pc s = Zobrist.psq pc s := if_neg fun hn => h (Piece.isNone_iff.mp hn)

theorem xor_xor_cancel (x y : BitVec 64) : x ^^^ y ^^^ y = x := by
  rw [BitVec.xor_assoc, BitVec.xor_self, BitVec.xor_zero]

/-! ## The branches of a move -/

theorem hashDrift_changeHand {c : Color} {f : Hand → Hand} :
    (b.changeHand true c f).hashDrift = b.hashDrift := by
  simp only [changeHand, hashDrift_xorHash, hashDrift_setHand]
  have hold : (b.xorHash true (hashHand c (b.hand c))).hand = b.hand := rfl
  rw [hold, show ((b.xorHash true (hashHand c (b.hand c))).setHand c (f (b.hand c))).hand c =
    f (b.hand c) from Function.update_self c _ _, xor_xor_cancel, xor_xor_cancel]

theorem hashDrift_doDrop {pt : PieceType} {t : Square} (ht : b.board t = .none)
    (hpt : pt.isHandPiece = true) : (b.doDrop true pt t).hashDrift = b.hashDrift := by
  have hne : (⟨b.sideToMove, pt⟩ : Piece) ≠ .none :=
    Piece.ne_none_of_isValid (PieceType.isValid_of_isHandPiece hpt)
  have hempty : (b.changeHand true b.sideToMove (Hand.sub · pt)).board t = .none := ht
  simp only [doDrop, hashDrift_xorHash, hashDrift_putPiece, hashDrift_changeHand, hempty,
    manKey_of_ne_none hne]
  rw [show manKey .none t = 0#64 from rfl, BitVec.xor_zero, xor_xor_cancel]

theorem hashDrift_doCapture {t : Square} : (b.doCapture true t).hashDrift = b.hashDrift := by
  rw [doCapture]
  by_cases h : b.isEmpty t = true
  · rw [if_neg (by simp [h])]
  · have hne : b.board t ≠ .none := fun e => h (isEmpty_iff.mpr e)
    rw [if_pos (by simp [h])]
    simp only [hashDrift_changeHand, hashDrift_removePiece, hashDrift_xorHash]
    rw [show (b.xorHash true (Zobrist.psq (b.board t) t)).board t = b.board t from rfl,
      manKey_of_ne_none hne, xor_xor_cancel]

theorem hashDrift_doBoardMove {s t : Square} {promotion : Bool} (ha : b.Agree)
    (hm : b.CanMove s t promotion) : (b.doBoardMove true s t promotion).hashDrift =
      b.hashDrift := by
  set c := b.doCapture true t with hc
  have hs : c.board s = b.board s := by
    rw [hc, board_doCapture, Function.update_of_ne hm.ne]
  have ht : c.board t = .none := by
    rw [hc, board_doCapture, Function.update_self]
  have hmoved := Piece.ne_none_of_isValid (hm.valid_movedPiece ha)
  set d := c.xorHash true (Zobrist.psq (c.board s) s) with hd
  have hd' : d.board = c.board := rfl
  have ht' : (d.removePiece s).board t = .none := by
    simp only [removePiece, Function.update_of_ne hm.ne.symm, hd', ht]
  have hlast : (b.doBoardMove true s t promotion).hashDrift =
      ((d.removePiece s).putPiece t (b.movedPiece s promotion)).hashDrift ^^^
        Zobrist.psq (b.movedPiece s promotion) t := by
    simp only [doBoardMove, ← hc, hashDrift_xorHash, hs, movedPiece]
    rw [hd, hs]
  rw [hlast, hashDrift_putPiece, ht', hashDrift_removePiece, hd', hs, hd, hashDrift_xorHash, hs,
    manKey_of_ne_none hm.src, manKey_of_ne_none hmoved, xor_xor_cancel,
    show manKey .none t = 0#64 from rfl, BitVec.xor_zero, xor_xor_cancel, hc, hashDrift_doCapture]

/-- `DoMove` keeps the difference between the stored hash and the hash from scratch. -/
theorem hashDrift_doMoveInternal {m : Move} {g : Option Bool} (ha : b.Agree)
    (hm : b.CanPlay m) : (b.doMoveInternal m true g).1.hashDrift = b.hashDrift := by
  have happly : (b.applyMove m true).hashDrift = b.hashDrift := by
    cases m with
    | drop pt t => exact hashDrift_doDrop hm.1 hm.2
    | normal s t => exact hashDrift_doBoardMove ha hm
    | promotion s t => exact hashDrift_doBoardMove ha hm
  have hturn : sideKey (~~~b.sideToMove) = sideKey b.sideToMove ^^^ Zobrist.side := by
    cases b.sideToMove
    · exact (BitVec.zero_xor).symm
    · exact (BitVec.xor_self).symm
  rw [← happly, hashDrift, hashDrift, scratchHash_eq, scratchHash_eq, board_doMoveInternal,
    hand_doMoveInternal, sideToMove_doMoveInternal, hash_doMoveInternal, if_pos rfl, hturn,
    (aux_applyMove b true m).1]
  refine Eq.trans ?_ (xor_xor_cancel _ Zobrist.side)
  ac_rfl

end Drift

/-! ## The predictions -/

section Predicted

variable {b : ShogiBoard} {m : Move} {c : Color} {key : BitVec 64} {s t : Square}

theorem boardKey_xorHash : (b.xorHash true key).boardKey = b.boardKey ^^^ key := by
  change b.hash ^^^ key ^^^ hashHand .black (b.hand .black) ^^^ hashHand .white (b.hand .white) = _
  rw [boardKey]
  ac_rfl

theorem boardKey_setHand {h : Hand} : (b.setHand c h).boardKey =
    b.boardKey ^^^ hashHand c (b.hand c) ^^^ hashHand c h := by
  simp only [boardKey, setHand]
  cases c
  · rw [Function.update_self, Function.update_of_ne (show Color.white ≠ .black by decide)]
    refine (xor_xor_cancel _ (hashHand .black (b.hand .black))).symm.trans ?_
    ac_rfl
  · rw [Function.update_self, Function.update_of_ne (show Color.black ≠ .white by decide)]
    refine (xor_xor_cancel _ (hashHand .white (b.hand .white))).symm.trans ?_
    ac_rfl

/-- A change of a hand leaves the key of the men alone. -/
theorem boardKey_changeHand {f : Hand → Hand} : (b.changeHand true c f).boardKey = b.boardKey := by
  simp only [changeHand, boardKey_xorHash, boardKey_setHand]
  have hold : (b.xorHash true (hashHand c (b.hand c))).hand = b.hand := rfl
  rw [hold, show ((b.xorHash true (hashHand c (b.hand c))).setHand c (f (b.hand c))).hand c =
    f (b.hand c) from Function.update_self c _ _, xor_xor_cancel, xor_xor_cancel]

theorem boardKey_putPiece {q : Piece} : (b.putPiece s q).boardKey = b.boardKey := rfl

theorem boardKey_removePiece : (b.removePiece s).boardKey = b.boardKey := rfl

theorem hash_changeHand {f : Hand → Hand} : (b.changeHand true c f).hash =
    b.hash ^^^ hashHand c (b.hand c) ^^^ hashHand c (f (b.hand c)) := by
  simp only [changeHand, xorHash, setHand, if_true, Function.update_self]

theorem hash_doCapture : (b.doCapture true t).hash =
    if !(b.board t).isNone then
      b.hash ^^^ Zobrist.psq (b.board t) t ^^^ hashHand b.sideToMove (b.hand b.sideToMove) ^^^
        hashHand b.sideToMove ((b.hand b.sideToMove).add (b.board t).type.unpromote)
    else b.hash := by
  rw [doCapture, isEmpty]
  split
  · exact hash_changeHand
  · rfl

theorem boardKey_doCapture : (b.doCapture true t).boardKey =
    if !(b.board t).isNone then b.boardKey ^^^ Zobrist.psq (b.board t) t else b.boardKey := by
  rw [doCapture, isEmpty]
  split
  · rw [boardKey_changeHand, boardKey_removePiece, boardKey_xorHash]
  · rfl

/-- A capture elsewhere leaves the moving man alone. -/
theorem board_doCapture_src (hne : s ≠ t) : (b.doCapture true t).board s = b.board s := by
  rw [board_doCapture, Function.update_of_ne hne]

theorem hash_doBoardMove {promotion : Bool} (hne : s ≠ t) :
    (b.doBoardMove true s t promotion).hash = b.hashAfterBoardMove s t promotion := by
  simp only [doBoardMove, hashAfterBoardMove, ← hash_doCapture, xorHash, putPiece, removePiece,
    board_doCapture_src hne, movedPiece, if_true]

theorem boardKey_doBoardMove {promotion : Bool} (hne : s ≠ t) :
    (b.doBoardMove true s t promotion).boardKey = b.boardKeyAfterBoardMove s t promotion := by
  simp only [doBoardMove, boardKeyAfterBoardMove, ← boardKey_doCapture, boardKey_xorHash,
    boardKey_putPiece, boardKey_removePiece, board_doCapture_src hne, movedPiece]

/-- The move changes the hash and the key of the men as predicted, but for the turn. -/
theorem keys_applyMove (hm : b.CanPlay m) :
    (b.applyMove m true).hash ^^^ Zobrist.side = b.hashAfter m ∧
      (b.applyMove m true).boardKey ^^^ Zobrist.side = b.boardKeyAfter m := by
  cases m with
  | drop pt t =>
    refine ⟨?_, ?_⟩
    · simp only [applyMove, doDrop, hashAfter, xorHash, putPiece, hash_changeHand, if_true]
    · simp only [applyMove, doDrop, boardKeyAfter, boardKey_xorHash, boardKey_putPiece,
        boardKey_changeHand]
  | normal s t =>
    exact ⟨congrArg (· ^^^ Zobrist.side) (hash_doBoardMove hm.ne),
      congrArg (· ^^^ Zobrist.side) (boardKey_doBoardMove hm.ne)⟩
  | promotion s t =>
    exact ⟨congrArg (· ^^^ Zobrist.side) (hash_doBoardMove hm.ne),
      congrArg (· ^^^ Zobrist.side) (boardKey_doBoardMove hm.ne)⟩

/-- `HashAfter` and `BoardKeyAfter` are the keys of the board after `DoMove`, with or without a check
flag from the caller. The legal moves are among the allowed ones. -/
theorem predicted_keys {g : Option Bool} (hm : b.position.Allowed m) :
    (b.doMoveInternal m true g).1.hash = b.hashAfter m ∧
      (b.doMoveInternal m true g).1.boardKey = b.boardKeyAfter m := by
  obtain ⟨hhash, hkey⟩ := keys_applyMove (canPlay_of_allowed hm)
  refine ⟨?_, ?_⟩
  · rw [hash_doMoveInternal, if_pos rfl, ← hhash]
  · rw [boardKey, hash_doMoveInternal, hand_doMoveInternal, if_pos rfl, ← hkey, boardKey]
    ac_rfl

/-- Black's pawn in front of a promoted silver. -/
def pawnMeetsProSilver : ShogiBoard :=
  new.placeAll [(.fromIdx 3, ⟨.black, .pawn⟩), (.fromIdx 2, ⟨.white, .proSilver⟩)]

/-- The pawn takes it and promotes. -/
theorem predicted_keys_pawnMeetsProSilver :
    let m := Move.promotion (.fromIdx 3) (.fromIdx 2)
    (pawnMeetsProSilver.doMove m).hash = pawnMeetsProSilver.hashAfter m ∧
      (pawnMeetsProSilver.doMove m).boardKey = pawnMeetsProSilver.boardKeyAfter m :=
  predicted_keys (@Position.Allowed.promotion _ .pawn _ _ (by decide +kernel) (by decide +kernel)
    (by decide +kernel))

end Predicted

end ShogiBoard

end Shogi
