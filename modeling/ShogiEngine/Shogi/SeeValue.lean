import ShogiEngine.Shogi.Conservation
import ShogiEngine.Shogi.See

/-!
# The value of an exchange

What the loop of `SeeGe` decides with a running bound and a bit: whether the value of the captures on one
square, where each side may stop or go on, reaches the threshold.

## Main definitions

- `exchangeValue`: the value for the side that may capture, by recursion
- `seeValue`: what a move gains, less what the opponent then gets
- `seeGeWithin`: `SeeGe` with a given number of rounds

## Main results

- `exchangeValue_le`: an exchange is worth no more than the man on the square
- `seeLoop_spec`: the loop compares the value with its bound
- `seeGe_exchange`: `SeeGe` is the test of the value, and how many rounds it takes
-/

namespace Shogi

namespace ShogiBoard

/-- The first attacker: of the first type in the order that has one, the man on the lowest square. -/
def firstAttacker (b : ShogiBoard) (dst : Square) (occ : Bitboard) (stm : Color) : Option Square :=
  kAttackerOrder.findSome? fun pt => (b.attackersTo dst occ stm &&& occ &&& b.piecesOf stm pt).peek

section FirstAttacker

variable {b : ShogiBoard} {dst s : Square} {occ bb : Bitboard} {stm : Color} {pt : PieceType}

theorem isSome_peek (bb : Bitboard) : bb.peek.isSome = bb.any := by
  rw [Bool.eq_iff_iff]
  constructor
  · intro h
    obtain ⟨s, hs⟩ := Option.isSome_iff_exists.mp h
    exact Bitboard.any_iff.mpr ⟨s, Bitboard.mem_of_peek hs⟩
  · intro h
    obtain ⟨s, -, hs⟩ := exists_peek h
    rw [hs]
    rfl

theorem mem_of_firstAttacker (h : b.firstAttacker dst occ stm = some s) : s ∈ occ := by
  obtain ⟨pt, -, hpeek⟩ := List.exists_of_findSome?_eq_some h
  have hs := Bitboard.mem_of_peek hpeek
  rw [Bitboard.mem_and, Bitboard.mem_and] at hs
  exact hs.1.2

end FirstAttacker

/-- The value of the captures on `dst` for `stm`, with a man worth `v` on it and the others on `occ`. The
side may stop, or capture with its first attacker, which is then at risk itself. A king captures only if
the square is not attacked back. -/
def exchangeValue (b : ShogiBoard) (dst : Square) (occ : Bitboard) (stm : Color) (v : Int) : Int :=
  if h : (b.firstAttacker dst occ stm).isSome = true then
    let s := (b.firstAttacker dst occ stm).get h
    let pt := (b.board s).type
    if pt = .king then
      if (b.attackersTo dst occ (~~~stm) &&& occ).any then 0 else max 0 v
    else max 0 (v - b.exchangeValue dst (occ.clear s) (~~~stm) (kSeeValue pt))
  else 0
termination_by occ.popCount
decreasing_by exact popCount_clear_lt (mem_of_firstAttacker (Option.some_get h).symm)

/-- What a move gains at once, less what the opponent gets on its destination. -/
def seeValue (b : ShogiBoard) (m : Move) : Int :=
  b.seeGain m - b.exchangeValue m.dst (b.seeOccupied m) (~~~b.sideToMove) (kSeeValue (b.seeLanding m))

/-- `SeeGe`, given up after a number of rounds of its loop. -/
def seeGeWithin (b : ShogiBoard) (rounds : Nat) (m : Move) (threshold : Int) : Option Bool :=
  let swap := b.seeGain m - threshold
  if swap < 0 then some false
  else
    let swap := kSeeValue (b.seeLanding m) - swap
    if swap ≤ 0 then some true
    else b.seeLoop Bitboard.peek m.dst rounds (b.seeOccupied m) b.sideToMove swap true

/-- The men that an exchange can use up: those on the board, and one that is dropped. -/
def seeMen (b : ShogiBoard) (m : Move) : Nat := b.occupied.popCount + if m.isDrop then 1 else 0

/-! ## The first attacker -/

section Passes

variable {b : ShogiBoard} {dst s : Square} {occ : Bitboard} {stm : Color} {v swap : Int} {res : Bool}

theorem findSome?_eq_bind {α β : Type} (f : α → Option β) (l : List α) :
    l.findSome? f = (l.find? fun a => (f a).isSome).bind f := by
  induction l with
  | nil => rfl
  | cons a l ih =>
    cases h : f a with
    | none => rw [List.findSome?_cons, h, List.find?_cons_of_neg (by simp [h]), ih]
    | some x => rw [List.findSome?_cons, h, List.find?_cons_of_pos (by simp [h]), Option.bind_some, h]

theorem firstAttacker_of_empty (h : (b.attackersTo dst occ stm &&& occ).empty = true) :
    b.firstAttacker dst occ stm = none := by
  rw [firstAttacker, List.findSome?_eq_none_iff]
  intro pt _
  rw [← Option.not_isSome_iff_eq_none, isSome_peek, Bitboard.any_iff]
  rintro ⟨s, hs⟩
  exact Bitboard.empty_iff.mp h s (Bitboard.mem_and.mp hs).1

theorem mem_kAttackerOrder {pt : PieceType} (h : pt.isValid = true) : pt ∈ kAttackerOrder := by
  revert h
  cases pt <;> decide

/-- If there are attackers, the first one is of the chosen type. -/
theorem firstAttacker_of_not_empty (ha : b.Agree) (h : ¬ (b.attackersTo dst occ stm &&& occ).empty = true) :
    ∃ s, b.firstAttacker dst occ stm = some s ∧
      (b.attackersTo dst occ stm &&& occ &&&
        b.piecesOf stm (b.seeChosen (b.attackersTo dst occ stm &&& occ) stm)).peek = some s ∧
      (b.board s).type = b.seeChosen (b.attackersTo dst occ stm &&& occ) stm := by
  obtain ⟨attackers, hattackers⟩ : ∃ a, b.attackersTo dst occ stm &&& occ = a := ⟨_, rfl⟩
  have hsome : (kAttackerOrder.find? fun pt => (attackers &&& b.piecesOf stm pt).any).isSome = true := by
    rw [Bitboard.empty, Bool.not_eq_true', Bool.not_eq_false, Bitboard.any_iff] at h
    obtain ⟨u, hu⟩ := h
    obtain ⟨pt, hpt, -⟩ := mem_attackersTo.mp (Bitboard.mem_and.mp hu).1
    obtain ⟨hman, hpiece⟩ := (ha.has_iff.trans men_iff).mp hpt
    have hvalid : pt.isValid = true := by
      have hvalid := ha.valid u hman
      rw [hpiece] at hvalid
      exact hvalid
    rw [List.find?_isSome]
    exact ⟨pt, mem_kAttackerOrder hvalid, Bitboard.any_iff.mpr ⟨u, Bitboard.mem_and.mpr ⟨hattackers ▸ hu, mem_piecesOf.mpr hpt⟩⟩⟩
  obtain ⟨pt, hfind⟩ := Option.isSome_iff_exists.mp hsome
  have hchosen : b.seeChosen attackers stm = pt := by rw [seeChosen, hfind, Option.getD_some]
  have hany := List.find?_some hfind
  obtain ⟨s, hs, hpeek⟩ := exists_peek hany
  have hfirst : b.firstAttacker dst occ stm = some s := by
    rw [firstAttacker, hattackers, findSome?_eq_bind]
    simp only [isSome_peek, hfind, Option.bind_some, hpeek]
  rw [hattackers, hchosen]
  refine ⟨s, hfirst, hpeek, ?_⟩
  have hman := (ha.has_iff.trans men_iff).mp (mem_piecesOf.mp (Bitboard.mem_and.mp hs).2)
  rw [hman.2]

/-! ## What a pass and the value have in common -/

/-- Nobody can capture. -/
theorem pass_of_empty (v swap : Int) (res : Bool) (h : (b.attackersTo dst occ stm &&& occ).empty = true) :
    b.seePass dst occ stm swap res = .done res ∧ b.exchangeValue dst occ stm v = 0 := by
  rw [seePass, exchangeValue, firstAttacker_of_empty h]
  simp only [h, if_true, Option.isSome_none, Bool.false_eq_true, dif_neg, not_false_eq_true, and_self]

/-- Only the king can. -/
theorem pass_of_king (v swap : Int) (res : Bool) (ha : b.Agree) (h : ¬ (b.attackersTo dst occ stm &&& occ).empty = true)
    (hking : b.seeChosen (b.attackersTo dst occ stm &&& occ) stm = .king) :
    b.seePass dst occ stm swap res =
        .done (if (b.attackersTo dst occ (~~~stm) &&& occ).any then res else !res) ∧
      b.exchangeValue dst occ stm v =
        if (b.attackersTo dst occ (~~~stm) &&& occ).any then 0 else max 0 v := by
  obtain ⟨s, hfirst, -, htype⟩ := firstAttacker_of_not_empty ha h
  rw [hking] at htype
  constructor
  · rw [seePass]
    simp only
    rw [if_neg h, if_pos hking, Bool.not_not]
  · rw [exchangeValue]
    simp only [hfirst, Option.isSome_some, Option.get_some, htype, dif_pos, if_true]

/-- Another man captures. -/
theorem pass_of_ne_king (v swap : Int) (res : Bool) (ha : b.Agree) (h : ¬ (b.attackersTo dst occ stm &&& occ).empty = true)
    (hne : b.seeChosen (b.attackersTo dst occ stm &&& occ) stm ≠ .king) :
    ∃ s pt men, s ∈ occ ∧ men.peek = some s ∧
      b.seePass dst occ stm swap res =
        (if kSeeValue pt - swap < (!res).toInt then .done (!res)
          else .capture men (kSeeValue pt - swap) (!res)) ∧
      b.exchangeValue dst occ stm v =
        max 0 (v - b.exchangeValue dst (occ.clear s) (~~~stm) (kSeeValue pt)) := by
  obtain ⟨s, hfirst, hpeek, htype⟩ := firstAttacker_of_not_empty ha h
  refine ⟨s, b.seeChosen (b.attackersTo dst occ stm &&& occ) stm, _, mem_of_firstAttacker hfirst, hpeek, ?_, ?_⟩
  · rw [seePass]
    simp only
    rw [if_neg h, if_neg hne]
  · rw [exchangeValue]
    simp only [hfirst, Option.isSome_some, Option.get_some, htype, hne, dif_pos, if_false]

end Passes

/-! ## The loop decides -/

section Loop

variable {b : ShogiBoard} {dst : Square} {occ : Bitboard} {stm : Color} {v swap : Int} {fuel : Nat} {m : Move}
  {t : Int}

theorem kSeeValue_nonneg (pt : PieceType) : 0 ≤ kSeeValue pt := by
  cases pt <;> decide

theorem exchangeValue_nonneg (b : ShogiBoard) (dst : Square) (occ : Bitboard) (stm : Color) (v : Int) :
    0 ≤ b.exchangeValue dst occ stm v := by
  rw [exchangeValue]
  split
  · dsimp only
    split
    · split
      · exact le_rfl
      · exact le_max_left _ _
    · exact le_max_left _ _
  · exact le_rfl

/-- An exchange is worth no more than the man on the square. -/
theorem exchangeValue_le (b : ShogiBoard) (dst : Square) (occ : Bitboard) (stm : Color) (hv : 0 ≤ v) :
    b.exchangeValue dst occ stm v ≤ v := by
  have hrest : ∀ w, 0 ≤ w → max 0 (v - w) ≤ v := fun w hw => max_le hv (by omega)
  rw [exchangeValue]
  split
  · dsimp only
    split
    · split
      · exact hv
      · exact max_le hv le_rfl
    · exact hrest _ (exchangeValue_nonneg _ _ _ _ _)
  · exact hv

/-- The loop compares the value of the exchange with a bound, which `swap` gives as its distance to the man on
the square. With the bit set it asks whether the value stays within it, and else whether the value reaches it. -/
theorem seeLoop_spec (ha : b.Agree) (hfuel : occ.popCount < fuel) :
    (0 < swap → swap ≤ v → b.seeLoop Bitboard.peek dst fuel occ stm swap true =
        some (decide (b.exchangeValue dst occ (~~~stm) v ≤ v - swap))) ∧
      (0 ≤ swap → swap < v → b.seeLoop Bitboard.peek dst fuel occ stm swap false =
        some (decide (v - swap ≤ b.exchangeValue dst occ (~~~stm) v))) := by
  induction fuel generalizing occ stm swap v with
  | zero => omega
  | succ fuel ih =>
    by_cases hempty : (b.attackersTo dst occ (~~~stm) &&& occ).empty = true
    · -- nobody captures, and the value is zero
      constructor
      · intro hswap hle
        obtain ⟨hpass, hvalue⟩ := pass_of_empty v swap true hempty
        rw [seeLoop, hpass, hvalue, decide_eq_true (by omega)]
      · intro hswap hlt
        obtain ⟨hpass, hvalue⟩ := pass_of_empty v swap false hempty
        rw [seeLoop, hpass, hvalue, decide_eq_false (by omega)]
    by_cases hking : b.seeChosen (b.attackersTo dst occ (~~~stm) &&& occ) (~~~stm) = .king
    · -- the king gains the whole man or nothing
      constructor
      · intro hswap hle
        obtain ⟨hpass, hvalue⟩ := pass_of_king v swap true ha hempty hking
        rw [seeLoop, hpass, hvalue]
        dsimp only
        split
        · rw [decide_eq_true (by omega)]
        · rw [decide_eq_false (by omega), Bool.not_true]
      · intro hswap hlt
        obtain ⟨hpass, hvalue⟩ := pass_of_king v swap false ha hempty hking
        rw [seeLoop, hpass, hvalue]
        dsimp only
        split
        · rw [decide_eq_false (by omega)]
        · rw [decide_eq_true (by omega), Bool.not_false]
    · -- the man that captures is at risk with the bound that is left
      constructor
      · intro hswap hle
        obtain ⟨s, pt, men, hs, hpeek, hpass, hvalue⟩ :=
          pass_of_ne_king v swap true ha hempty hking
        have hlt := popCount_clear_lt hs
        have hnonneg := kSeeValue_nonneg pt
        have hrest := exchangeValue_le b dst (occ.clear s) (~~~(~~~stm)) hnonneg
        have hnext := (@ih (occ.clear s) (~~~stm) (kSeeValue pt) (kSeeValue pt - swap) (by omega)).2
        rw [seeLoop, hpass, hvalue, Bool.not_true]
        by_cases hstop : kSeeValue pt - swap < Bool.false.toInt
        · have hfalse : Bool.false.toInt = 0 := rfl
          rw [if_pos hstop]
          dsimp only
          rw [decide_eq_false (by omega)]
        · have hfalse : Bool.false.toInt = 0 := rfl
          rw [if_neg hstop]
          dsimp only
          rw [hpeek, Option.bind_some, hnext (by omega) (by omega)]
          exact congrArg some (decide_eq_decide.mpr (by omega))
      · intro hswap hlt'
        obtain ⟨s, pt, men, hs, hpeek, hpass, hvalue⟩ :=
          pass_of_ne_king v swap false ha hempty hking
        have hlt := popCount_clear_lt hs
        have hnonneg := kSeeValue_nonneg pt
        have hrest := exchangeValue_le b dst (occ.clear s) (~~~(~~~stm)) hnonneg
        have hnext := (@ih (occ.clear s) (~~~stm) (kSeeValue pt) (kSeeValue pt - swap) (by omega)).1
        have htrue : Bool.true.toInt = 1 := rfl
        rw [seeLoop, hpass, hvalue, Bool.not_false]
        by_cases hstop : kSeeValue pt - swap < Bool.true.toInt
        · rw [if_pos hstop]
          dsimp only
          rw [decide_eq_true (by omega)]
        · rw [if_neg hstop]
          dsimp only
          rw [hpeek, Option.bind_some, hnext (by omega) (by omega)]
          exact congrArg some (decide_eq_decide.mpr (by omega))

/-- With enough rounds `SeeGe` tells whether the value reaches the threshold. -/
theorem seeGeWithin_eq (ha : b.Agree) (hfuel : (b.seeOccupied m).popCount < fuel) :
    b.seeGeWithin fuel m t = some (decide (t ≤ b.seeValue m)) := by
  have hnonneg := exchangeValue_nonneg b m.dst (b.seeOccupied m) (~~~b.sideToMove) (kSeeValue (b.seeLanding m))
  have hle := exchangeValue_le b m.dst (b.seeOccupied m) (~~~b.sideToMove) (kSeeValue_nonneg (b.seeLanding m))
  rw [seeGeWithin, seeValue]
  dsimp only
  split
  · rw [decide_eq_false (by omega)]
  split
  · rw [decide_eq_true (by omega)]
  · rw [(seeLoop_spec (v := kSeeValue (b.seeLanding m)) ha hfuel).1 (by omega) (by omega)]
    exact congrArg some (decide_eq_decide.mpr (by omega))

theorem seeGe_eq (ha : b.Agree) : b.seeGe m t = decide (t ≤ b.seeValue m) := by
  have h := seeGeWithin_eq (t := t) ha (Nat.lt_succ_of_le (popCount_le (b.seeOccupied m)))
  have hsome := b.seeGeBy_peek m t
  exact Option.some.inj (hsome.symm.trans h)

/-- The man that moves does not take part in the captures. -/
theorem popCount_seeOccupied_lt (ha : b.Agree) (hm : b.position.Allowed m) :
    (b.seeOccupied m).popCount < b.seeMen m := by
  have hclear : ∀ (bb : Bitboard) s, (bb.clear s).popCount ≤ bb.popCount := by
    intro bb s
    by_cases hs : s ∈ bb
    · exact (popCount_clear_lt hs).le
    · have hsame : bb.clear s = bb := Bitboard.ext_mem fun u => by
        rw [Bitboard.mem_clear]
        exact ⟨fun h => h.1, fun h => ⟨h, fun e => hs (e ▸ h)⟩⟩
      rw [hsame]
  have hmoves : ∀ pt s d, b.position.Goes pt s d →
      ((b.occupied.clear s).clear d).popCount < b.occupied.popCount := by
    intro pt s d hgoes
    have hs : s ∈ b.occupied := ha.mem_occupied.mpr (Position.occupied_iff.mpr ⟨_, pt, hgoes.1⟩)
    exact (hclear _ d).trans_lt (popCount_clear_lt hs)
  cases hm with
  | normal goes _ => exact hmoves _ _ _ goes
  | promotion goes _ _ => exact hmoves _ _ _ goes
  | drop => exact Nat.lt_succ_of_le (hclear _ _)

end Loop

/-- For every consistent board and every move of the rules: `SeeGe` says whether the value of the exchange
reaches the threshold, so that a lower threshold is reached as well, and its loop comes to the result within as
many rounds as there are men. -/
theorem seeGe_exchange (b : ShogiBoard) (m : Move) (hb : b.Consistent) (hm : b.position.Allowed m) :
    (∀ t, b.seeGe m t = true ↔ t ≤ b.seeValue m) ∧
      (∀ t t', t ≤ t' → b.seeGe m t' = true → b.seeGe m t = true) ∧
      ∀ t rounds, b.seeMen m ≤ rounds → b.seeGeWithin rounds m t = some (b.seeGe m t) := by
  have hvalue : ∀ t, b.seeGe m t = true ↔ t ≤ b.seeValue m := by
    intro t
    rw [seeGe_eq hb.toAgree, decide_eq_true_eq]
  refine ⟨hvalue, fun t t' hle h => ?_, fun t rounds hrounds => ?_⟩
  · exact (hvalue t).mpr (hle.trans ((hvalue t').mp h))
  · have hlt := popCount_seeOccupied_lt hb.toAgree hm
    rw [seeGeWithin_eq hb.toAgree (hlt.trans_le hrounds), seeGe_eq hb.toAgree]

/-- A gold captures a pawn. -/
theorem seeGe_exchange_goldMeetsPawn :
    (∀ t, goldMeetsPawn.seeGe goldForward t = true ↔ t ≤ goldMeetsPawn.seeValue goldForward) ∧
      goldMeetsPawn.seeGeWithin 4 goldForward 90 = some (goldMeetsPawn.seeGe goldForward 90) := by
  obtain ⟨hvalue, -, hrounds⟩ :=
    seeGe_exchange goldMeetsPawn goldForward consistent_goldMeetsPawn allowed_goldMeetsPawn
  exact ⟨hvalue, hrounds 90 4 (by decide +kernel)⟩

end ShogiBoard

end Shogi
