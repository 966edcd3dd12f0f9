import ShogiEngine.Shogi.Flip

/-!
# Static exchange evaluation

`SeeGe` of `nnue/see.cc`: the captures on one square one after the other, each time with the first
attacker in a fixed order of types. Among men of one type the source takes the lowest square, which
is the highest one for the opponent.

## Main definitions

- `seeGe`: the source's function; `seeGeBy` leaves open which man of the type captures

## Main results

- `seeLoop_isSome`: the loop ends before the fuel does
- `seeGeBy_flipped`: on the flipped board the man on the highest square captures
- `seeGeBy_congr`: which man captures does not matter where no two of one type can
-/

namespace Shogi

/-- `kSeeValue`. -/
def kSeeValue : PieceType → Int
  | .none => 0
  | .pawn => 90
  | .lance => 315
  | .knight => 405
  | .silver => 495
  | .bishop => 855
  | .rook => 990
  | .gold => 540
  | .king => 15000
  | .proPawn => 540
  | .proLance => 540
  | .proKnight => 540
  | .proSilver => 540
  | .horse => 945
  | .dragon => 1395
  | .reserved => 0

/-- `kAttackerOrder`. -/
def kAttackerOrder : List PieceType :=
  [.pawn, .lance, .knight, .silver, .gold, .proPawn, .proLance, .proKnight, .proSilver, .bishop,
    .rook, .horse, .dragon, .king]

namespace ShogiBoard

/-- Which man of a set captures. -/
abbrev Pick := Bitboard → Option Square

/-- `chosen`: the first type in the order with an attacker, a king without one. -/
def seeChosen (b : ShogiBoard) (attackers : Bitboard) (stm : Color) : PieceType :=
  (kAttackerOrder.find? fun pt => (attackers &&& b.piecesOf stm pt).any).getD .king

/-- How a pass of the loop ends: with the result, or with a capture by one of some men. -/
inductive SeePass
  | done (res : Bool)
  | capture (men : Bitboard) (swap : Int) (res : Bool)

/-- One pass of the loop of `SeeGe`, in which `stm` may capture. -/
def seePass (b : ShogiBoard) (dst : Square) (occ : Bitboard) (stm : Color) (swap : Int)
    (res : Bool) : SeePass :=
  let attackers := b.attackersTo dst occ stm &&& occ
  if attackers.empty then .done res
  else
    let res := !res
    let chosen := b.seeChosen attackers stm
    if chosen = .king then
      let opp := b.attackersTo dst occ (~~~stm) &&& occ
      .done (if opp.any then !res else res)
    else
      let swap := kSeeValue chosen - swap
      if swap < res.toInt then .done res
      else .capture (attackers &&& b.piecesOf stm chosen) swap res

/-- The loop of `SeeGe`; `none` if the fuel runs out or nothing is picked. -/
def seeLoop (b : ShogiBoard) (pick : Pick) (dst : Square) :
    Nat → Bitboard → Color → Int → Bool → Option Bool
  | 0, _, _, _, _ => none
  | fuel + 1, occ, stm, swap, res =>
    match b.seePass dst occ (~~~stm) swap res with
    | .done res => some res
    | .capture men swap res =>
      (pick men).bind fun s => b.seeLoop pick dst fuel (occ.clear s) (~~~stm) swap res

/-- What a capture on the destination gains at once. -/
def seeGain (b : ShogiBoard) : Move → Int
  | .drop _ _ => 0
  | .normal _ dst => kSeeValue (b.board dst).type
  | .promotion src dst => kSeeValue (b.board dst).type +
      (kSeeValue (b.board src).type.promote - kSeeValue (b.board src).type)

/-- `landing`: the man at risk on the destination. -/
def seeLanding (b : ShogiBoard) : Move → PieceType
  | .drop pt _ => pt
  | .normal src _ => (b.board src).type
  | .promotion src _ => (b.board src).type.promote

/-- The occupancy after the move. -/
def seeOccupied (b : ShogiBoard) (m : Move) : Bitboard :=
  match m.src with
  | some src => (b.occupied.clear src).clear m.dst
  | none => b.occupied.clear m.dst

/-- `SeeGe`, with the choice among men of one type left open. -/
def seeGeBy (b : ShogiBoard) (pick : Pick) (m : Move) (threshold : Int) : Option Bool :=
  let swap := b.seeGain m - threshold
  if swap < 0 then some false
  else
    let swap := kSeeValue (b.seeLanding m) - swap
    if swap ≤ 0 then some true
    else b.seeLoop pick m.dst 82 (b.seeOccupied m) b.sideToMove swap true

/-- `SeeGe`. -/
def seeGe (b : ShogiBoard) (m : Move) (threshold : Int) : Bool :=
  (b.seeGeBy Bitboard.peek m threshold).getD false

section Termination

variable {b : ShogiBoard} {pick : Pick} {dst : Square} {occ : Bitboard} {stm : Color} {swap : Int}
  {res : Bool} {fuel : Nat}

/-- The chosen type has an attacker, unless it is the king. -/
theorem seeChosen_any {attackers : Bitboard} (h : b.seeChosen attackers stm ≠ .king) :
    (attackers &&& b.piecesOf stm (b.seeChosen attackers stm)).any = true := by
  rw [seeChosen] at h ⊢
  cases hfind : kAttackerOrder.find? fun pt => (attackers &&& b.piecesOf stm pt).any with
  | none =>
    rw [hfind] at h
    exact absurd rfl h
  | some pt =>
    have hany := List.find?_some hfind
    exact hany

theorem popCount_clear_lt {s : Square} (hs : s ∈ occ) : (occ.clear s).popCount < occ.popCount := by
  have hsquares : (occ.clear s).squares.toFinset ⊂ occ.squares.toFinset := by
    rw [Finset.ssubset_iff_of_subset]
    · refine ⟨s, List.mem_toFinset.mpr (Bitboard.mem_squares.mpr hs), ?_⟩
      rw [List.mem_toFinset, Bitboard.mem_squares, Bitboard.mem_clear]
      exact fun h => h.2 rfl
    · intro t ht
      rw [List.mem_toFinset, Bitboard.mem_squares] at ht ⊢
      exact (Bitboard.mem_clear.mp ht).1
  have hcard := Finset.card_lt_card hsquares
  rw [List.toFinset_card_of_nodup (Bitboard.nodup_squares _),
    List.toFinset_card_of_nodup (Bitboard.nodup_squares _)] at hcard
  exact hcard

/-- The men that a pass leaves to capture attack the destination, are of one type and not kings. -/
theorem seePass_capture {men : Bitboard} {swap' : Int} {res' : Bool}
    (h : b.seePass dst occ stm swap res = .capture men swap' res') : men.any = true ∧
      ∃ pt, men = b.attackersTo dst occ stm &&& occ &&& b.piecesOf stm pt := by
  rw [seePass] at h
  simp only at h
  by_cases h1 : (b.attackersTo dst occ stm &&& occ).empty = true
  · rw [if_pos h1] at h
    cases h
  by_cases h2 : b.seeChosen (b.attackersTo dst occ stm &&& occ) stm = .king
  · rw [if_neg h1, if_pos h2] at h
    cases h
  · rw [if_neg h1, if_neg h2] at h
    split at h
    · cases h
    · rw [SeePass.capture.injEq] at h
      exact ⟨h.1 ▸ seeChosen_any h2, _, h.1.symm⟩

/-- Every pass takes a man off the occupancy, so that the loop ends. -/
theorem seeLoop_isSome (hpick : ∀ bb : Bitboard, bb.any = true → ∃ s ∈ bb, pick bb = some s)
    (hfuel : occ.popCount < fuel) : (b.seeLoop pick dst fuel occ stm swap res).isSome = true := by
  induction fuel generalizing occ stm swap res with
  | zero => omega
  | succ fuel ih =>
    rw [seeLoop]
    cases hpass : b.seePass dst occ (~~~stm) swap res with
    | done res => rfl
    | capture men swap res =>
      obtain ⟨hany, pt, hmen⟩ := seePass_capture hpass
      obtain ⟨s, hs, hpick'⟩ := hpick men hany
      rw [hmen, Bitboard.mem_and, Bitboard.mem_and] at hs
      have hlt := popCount_clear_lt hs.1.2
      simp only [hpick', Option.bind_some]
      exact ih (by omega)

theorem popCount_le (bb : Bitboard) : bb.popCount ≤ 81 :=
  (List.length_filter_le _ _).trans_eq List.length_finRange

theorem exists_peek {bb : Bitboard} (h : bb.any = true) : ∃ s ∈ bb, bb.peek = some s := by
  obtain ⟨t, ht⟩ := Bitboard.any_iff.mp h
  rw [Bitboard.peek]
  cases hsquares : bb.squares with
  | nil =>
    rw [← Bitboard.mem_squares, hsquares] at ht
    cases ht
  | cons s l => exact ⟨s, Bitboard.mem_squares.mp (hsquares ▸ List.mem_cons_self), rfl⟩

/-- `SeeGe` always gets to its result. -/
theorem seeGeBy_peek (m : Move) (threshold : Int) :
    b.seeGeBy Bitboard.peek m threshold = some (b.seeGe m threshold) := by
  have hsome : (b.seeGeBy Bitboard.peek m threshold).isSome = true := by
    rw [seeGeBy]
    simp only
    split
    · rfl
    split
    · rfl
    · exact seeLoop_isSome (fun _ => exists_peek) (Nat.lt_succ_of_le (popCount_le _))
  rw [seeGe]
  cases h : b.seeGeBy Bitboard.peek m threshold with
  | none =>
    rw [h] at hsome
    cases hsome
  | some r => rfl

end Termination

/-! ## The other pick -/

/-- The highest square. -/
def peekLast (bb : Bitboard) : Option Square := bb.squares.getLast?

/-- The men of one set rotated by a half turn are the other set. -/
def Mirrored (occ occ' : Bitboard) : Prop := ∀ s : Square, s.flipped ∈ occ' ↔ s ∈ occ

section Mirror

variable {b : ShogiBoard} {occ occ' x x' : Bitboard} {c : Color} {s : Square} {pt : PieceType}

theorem Mirrored.and (h : Mirrored occ occ') (hx : Mirrored x x') :
    Mirrored (occ &&& x) (occ' &&& x') := fun s => by
  rw [Bitboard.mem_and, Bitboard.mem_and, h s, hx s]

theorem Mirrored.clear (h : Mirrored occ occ') (s : Square) :
    Mirrored (occ.clear s) (occ'.clear s.flipped) := fun t => by
  rw [Bitboard.mem_clear, Bitboard.mem_clear, h t, Ne, Square.flipped_inj]

theorem Mirrored.any (h : Mirrored occ occ') : occ'.any = occ.any := by
  rw [Bool.eq_iff_iff, Bitboard.any_iff, Bitboard.any_iff, Square.exists_flipped]
  exact exists_congr h

theorem Mirrored.empty (h : Mirrored occ occ') : occ'.empty = occ.empty := by
  rw [Bitboard.empty, Bitboard.empty, h.any]

/-- The squares of the other set, in the other order. -/
theorem Mirrored.squares (h : Mirrored occ occ') :
    occ'.squares = (occ.squares.map Square.flipped).reverse := by
  have hall : List.finRange 81 = ((List.finRange 81).map Square.flipped).reverse := by decide
  rw [Bitboard.squares, hall, List.filter_reverse, List.filter_map, Bitboard.squares]
  congr 2
  refine List.filter_congr fun s _ => ?_
  rw [Bool.eq_iff_iff]
  exact h s

/-- The lowest square of the other set is the highest of this one. -/
theorem Mirrored.peek (h : Mirrored occ occ') :
    occ'.peek = (peekLast occ).map Square.flipped := by
  rw [Bitboard.peek, h.squares, List.head?_reverse, List.getLast?_map, peekLast]

theorem type_flipped (s : Square) : (b.flipped.board s.flipped).type = (b.board s).type := by
  rw [board_flipped]
  split
  · rename_i h
    rw [h]
  · rfl

theorem has_flipped (ha : b.Agree) : b.flipped.Has (~~~c) pt s.flipped ↔ b.Has c pt s := by
  rw [(consistent_flipped ha).toAgree.has_iff, ha.has_iff, position_flipped ha, Position.men_flip]

theorem mirrored_piecesOf (ha : b.Agree) (c : Color) (pt : PieceType) :
    Mirrored (b.piecesOf c pt) (b.flipped.piecesOf (~~~c) pt) := fun s => by
  rw [mem_piecesOf, mem_piecesOf, has_flipped ha]

theorem mirrored_occupied (ha : b.Agree) : Mirrored b.occupied b.flipped.occupied := fun s => by
  have hflip := consistent_flipped ha
  rw [ha.mem_occupied, hflip.toAgree.mem_occupied, position_flipped ha, Position.occupied_flip]
  simp only [Square.flipped_flipped]

theorem attacks_mirrored (h : Mirrored occ occ') {t : Square} :
    Attacks pt (~~~c) (· ∈ occ') s.flipped t.flipped ↔ Attacks pt c (· ∈ occ) s t := by
  have hocc : (fun u : Square => u.flipped ∈ occ) = (· ∈ occ') := by
    funext u
    have hu := h u.flipped
    rw [Square.flipped_flipped] at hu
    exact propext hu.symm
  rw [← hocc]
  exact @attacks_flipped pt c (· ∈ occ) s t

theorem mirrored_attackersTo (ha : b.Agree) (h : Mirrored occ occ') (s : Square) (c : Color) :
    Mirrored (b.attackersTo s occ c) (b.flipped.attackersTo s.flipped occ' (~~~c)) := fun t => by
  rw [ShogiBoard.mem_attackersTo, ShogiBoard.mem_attackersTo]
  exact exists_congr fun pt => and_congr (has_flipped ha) (attacks_mirrored h)

theorem seeChosen_mirrored (ha : b.Agree) (h : Mirrored occ occ') (stm : Color) :
    b.flipped.seeChosen occ' (~~~stm) = b.seeChosen occ stm := by
  rw [seeChosen, seeChosen]
  congr 2
  funext pt
  exact (h.and (mirrored_piecesOf ha stm pt)).any

/-- The men that may capture, rotated. -/
def SeePass.Mirrored : SeePass → SeePass → Prop
  | .done res, .done res' => res' = res
  | .capture men swap res, .capture men' swap' res' =>
    ShogiBoard.Mirrored men men' ∧ swap' = swap ∧ res' = res
  | _, _ => False

theorem seePass_mirrored (ha : b.Agree) (h : Mirrored occ occ') (dst : Square) (stm : Color)
    (swap : Int) (res : Bool) : (b.seePass dst occ stm swap res).Mirrored
      (b.flipped.seePass dst.flipped occ' (~~~stm) swap res) := by
  have hattackers := (mirrored_attackersTo ha h dst stm).and h
  have hopp := (mirrored_attackersTo ha h dst (~~~stm)).and h
  have hchosen := seeChosen_mirrored ha hattackers stm
  rw [seePass, seePass]
  simp only [hattackers.empty, hchosen, hopp.any]
  by_cases h1 : (b.attackersTo dst occ stm &&& occ).empty = true
  · rw [if_pos h1, if_pos h1]
    rfl
  by_cases h2 : b.seeChosen (b.attackersTo dst occ stm &&& occ) stm = .king
  · rw [if_neg h1, if_neg h1, if_pos h2, if_pos h2]
    rfl
  · rw [if_neg h1, if_neg h1, if_neg h2, if_neg h2]
    split
    · rfl
    · exact ⟨hattackers.and (mirrored_piecesOf ha stm _), rfl, rfl⟩

/-- The loop on the flipped board: every pass does the same, with the man on the highest square. -/
theorem seeLoop_flipped (ha : b.Agree) (dst : Square) (fuel : Nat) (h : Mirrored occ occ')
    (stm : Color) (swap : Int) (res : Bool) :
    b.flipped.seeLoop Bitboard.peek dst.flipped fuel occ' (~~~stm) swap res =
      b.seeLoop peekLast dst fuel occ stm swap res := by
  induction fuel generalizing occ occ' stm swap res with
  | zero => rfl
  | succ fuel ih =>
    have hpass := seePass_mirrored ha h dst (~~~stm) swap res
    rw [seeLoop, seeLoop]
    cases hleft : b.flipped.seePass dst.flipped occ' (~~~(~~~stm)) swap res with
    | done r' =>
      cases hright : b.seePass dst occ (~~~stm) swap res with
      | done r =>
        rw [hleft, hright] at hpass
        exact congrArg some hpass
      | capture men swap r =>
        rw [hleft, hright] at hpass
        exact hpass.elim
    | capture men' swap' r' =>
      cases hright : b.seePass dst occ (~~~stm) swap res with
      | done r =>
        rw [hleft, hright] at hpass
        exact hpass.elim
      | capture men swap r =>
        rw [hleft, hright] at hpass
        obtain ⟨hmen, rfl, rfl⟩ := hpass
        simp only [hmen.peek]
        cases peekLast men with
        | none => rfl
        | some s =>
          simp only [Option.map_some, Option.bind_some]
          exact ih (h.clear s) _ _ _

/-- The exchange on the flipped board is the one in which, among men of one type, the man on the
highest square captures. -/
theorem seeGeBy_flipped (ha : b.Agree) (m : Move) (threshold : Int) :
    b.flipped.seeGeBy Bitboard.peek m.flip threshold = b.seeGeBy peekLast m threshold := by
  have hgain : b.flipped.seeGain m.flip = b.seeGain m := by
    cases m <;> simp only [Move.flip, seeGain, type_flipped]
  have hlanding : b.flipped.seeLanding m.flip = b.seeLanding m := by
    cases m <;> simp only [Move.flip, seeLanding, type_flipped]
  have hocc : Mirrored (b.seeOccupied m) (b.flipped.seeOccupied m.flip) := by
    cases m with
    | drop pt t => exact (mirrored_occupied ha).clear t
    | normal s t => exact ((mirrored_occupied ha).clear s).clear t
    | promotion s t => exact ((mirrored_occupied ha).clear s).clear t
  rw [seeGeBy, seeGeBy, hgain, hlanding, Move.dst_flip, flipped_rest.2.1]
  simp only [seeLoop_flipped ha m.dst 82 hocc]

end Mirror

/-! ## Where the pick does not matter -/

section Congr

variable {b : ShogiBoard} {occ : Bitboard} {c : Color} {dst : Square}

/-- The lowest and the highest square of a set with no two members. -/
theorem peek_eq_peekLast {bb : Bitboard} (h : ∀ s ∈ bb, ∀ t ∈ bb, s = t) :
    bb.peek = peekLast bb := by
  rw [Bitboard.peek, peekLast]
  cases hsquares : bb.squares with
  | nil => rfl
  | cons s l =>
    have hmem : ∀ t ∈ s :: l, t = s := fun t ht =>
      h t (Bitboard.mem_squares.mp (hsquares ▸ ht)) s
        (Bitboard.mem_squares.mp (hsquares ▸ List.mem_cons_self))
    rw [List.head?_cons, List.getLast?_eq_some_getLast (List.cons_ne_nil _ _)]
    exact congrArg some (hmem _ (List.getLast_mem _)).symm

/-- Where no two men of one colour and type reach the destination, the pick does not matter. -/
theorem seeLoop_congr (ha : b.Agree) (fuel : Nat) (stm : Color) (swap : Int) (res : Bool)
    (h : ∀ c pt s t, s ∈ occ → t ∈ occ → b.Has c pt s → b.Has c pt t → Reach pt c s dst →
      Reach pt c t dst → s = t) :
    b.seeLoop Bitboard.peek dst fuel occ stm swap res =
      b.seeLoop peekLast dst fuel occ stm swap res := by
  induction fuel generalizing occ stm swap res with
  | zero => rfl
  | succ fuel ih =>
    rw [seeLoop, seeLoop]
    cases hpass : b.seePass dst occ (~~~stm) swap res with
    | done r => rfl
    | capture men swap r =>
      obtain ⟨-, pt, hmen⟩ := seePass_capture hpass
      have hmem : ∀ s ∈ men, s ∈ occ ∧ b.Has (~~~stm) pt s ∧ Reach pt (~~~stm) s dst := by
        intro s hs
        rw [hmen, Bitboard.mem_and, Bitboard.mem_and, mem_piecesOf,
          ShogiBoard.mem_attackersTo] at hs
        obtain ⟨⟨⟨qt, hqt, hattack⟩, hocc⟩, hpt⟩ := hs
        have htype : qt = pt := Position.men_unique (ha.has_iff.mp hqt) (ha.has_iff.mp hpt)
        exact ⟨hocc, hpt, htype ▸ hattack.1⟩
      have hpick : men.peek = peekLast men := peek_eq_peekLast fun s hs t ht =>
        h _ pt s t (hmem s hs).1 (hmem t ht).1 (hmem s hs).2.1 (hmem t ht).2.1 (hmem s hs).2.2
          (hmem t ht).2.2
      simp only [hpick]
      cases peekLast men with
      | none => rfl
      | some s =>
        exact ih _ _ _ fun c pt x y hx hy => h c pt x y (Bitboard.mem_clear.mp hx).1
          (Bitboard.mem_clear.mp hy).1

/-- The men besides the moving one are of different types, as far as they reach the destination. -/
def NoRivals (b : ShogiBoard) (m : Move) : Prop :=
  ∀ c pt s t, m.src ≠ some s → m.src ≠ some t → b.Has c pt s → b.Has c pt t →
    Reach pt c s m.dst → Reach pt c t m.dst → s = t

theorem seeGeBy_congr (ha : b.Agree) {m : Move} (h : b.NoRivals m) (threshold : Int) :
    b.seeGeBy Bitboard.peek m threshold = b.seeGeBy peekLast m threshold := by
  have hsrc : ∀ s ∈ b.seeOccupied m, m.src ≠ some s := by
    intro s hs
    cases m with
    | drop pt t => exact fun h => by cases h
    | normal x t =>
      rintro ⟨⟩
      exact (Bitboard.mem_clear.mp (Bitboard.mem_clear.mp hs).1).2 rfl
    | promotion x t =>
      rintro ⟨⟩
      exact (Bitboard.mem_clear.mp (Bitboard.mem_clear.mp hs).1).2 rfl
  rw [seeGeBy, seeGeBy]
  simp only [seeLoop_congr ha 82 _ _ _ fun c pt s t hs ht =>
    h c pt s t (hsrc s hs) (hsrc t ht)]

end Congr

end ShogiBoard

end Shogi
