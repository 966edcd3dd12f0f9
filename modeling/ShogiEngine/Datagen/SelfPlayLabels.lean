import ShogiEngine.Datagen.PlayGame
import ShogiEngine.Shogi.Representation

/-!
# The labels of self-play games

The records that `PlayGame` writes, and when the outcome in them is the true one.

## Main definitions

- `makeRecord`, `playGame`: the record of a position, and a whole game with its records
- `TruthfulLabel`: the outcome has a reason
- `Faithful`, `Decodes`: what a record says about its position
- `Truthful`: all of this for a game

## Main results

- `playable_openingBoard`: the opening is a legal position if the lines of the book are
- `truthful_iff`: a game is truthful iff it never reaches the search with exactly one legal move
-/

namespace Shogi.Datagen

/-! ## Writing the game -/

structure RecordHead where
  sfen : PackedSfen
  score : Int
  move : BitVec 16
  gamePly : BitVec 16
  result : Int
  flags : BitVec 8
  nDist : BitVec 16

structure DistEntry where
  move : BitVec 16
  visits : BitVec 16
  deriving DecidableEq

structure Record where
  head : RecordHead
  dist : List DistEntry

def kHasDist : BitVec 8 := 1#8

def kSelfPlay : BitVec 8 := 4#8

def kResignAdjudicated : BitVec 8 := 8#8

/-- `max_v`. -/
def maxVisits (dist : List (Move × Int)) : Int := dist.foldl (fun maxV x => max maxV x.2) 0

/-- The entries of a distribution, scaled. -/
def distEntries (dist : List (Move × Int)) : List DistEntry :=
  dist.filterMap fun x =>
    if x.2 ≤ 0 then none
    else some
      { move := x.1.raw
        visits := BitVec.ofInt 16 (max 1 (65535 * x.2 / max (maxVisits dist) 1)) }

/-- The record of a position; `none` if the position cannot be packed. -/
def makeRecord (noResign : Bool) (outcome : Int) (p : PositionRecord) : Option Record :=
  (ShogiBoard.setFromSfen p.sfen).toOption.bind fun b =>
    b.toPackedSfen.map fun packed =>
      { head :=
          { sfen := packed.packed
            score := max (-32000) (min 32000 p.scoreCp)
            move := (p.best.map Move.raw).getD 0#16
            gamePly := BitVec.ofInt 16 p.ply
            result := outcome * sign p.stm
            flags := kSelfPlay ||| (if noResign then 0#8 else kResignAdjudicated)
            nDist := 0#16 }
        dist := distEntries p.dist }

/-- `RecordWriter::Write`. -/
def writeRecord (r : Record) : Record :=
  { r with
    head :=
      { r.head with
        nDist := BitVec.ofNat 16 r.dist.length
        flags := if r.dist.isEmpty then r.head.flags else r.head.flags ||| kHasDist } }

/-- A game: its first board, what the loop did, and the records. -/
structure Game (F : Type) extends Play F where
  start : ShogiBoard
  records : List Record

/-- `PlayGame`, with up to 16 attempts at the opening. -/
def playGame {F : Type} (ops : FloatOps F) (o : Options F) (noResign : Bool)
    (book : List (List Char)) (draws : Nat → Draws) (choices : List (Choice F)) : Option (Game F) :=
  (openingBoard o book draws 16).bind fun b =>
    (playLoop ops o noResign choices (.start b)).map fun p =>
      { p with
        start := b
        records := (p.last.game.filterMap (makeRecord noResign p.outcome)).map writeRecord }

/-! ## What the labels and the records should say -/

section Truth

variable {F : Type} (ops : FloatOps F) (o : Options F) (noResign : Bool)

/-- The resignation rule has fired for a side: on enough of its last turns in a row the value at the
root was below the threshold. -/
def ResignFired (c : Color) (searched : List (ShogiBoard × TreeResult F)) : Prop :=
  noResign = false ∧ ∃ qs : List F, qs <:+ ownValues c searched ∧ qs ≠ [] ∧
    o.resignPlies ≤ qs.length ∧ ∀ q ∈ qs, ops.lt q o.resignThreshold = true

/-- The position is on the board for the fourth time: three entries of the history match, and if the
hash separates the positions of the line, the same position was on the board three times before. -/
def FourthOccurrence (start : ShogiBoard) (s : GameState F) : Prop :=
  3 ≤ s.board.repetitionCount ∧ ∀ (base : ShogiBoard) (plies : List Move), base.history = [] →
    start = base.playedOut plies → base.HashSeparates (s.movesPlayed ++ plies) →
    3 ≤ (base.boardsBefore (s.movesPlayed ++ plies)).countP
      (fun b => decide (b.SamePosition s.board))

/-- The outcome has its reason in the last position of the game. -/
structure TruthfulLabel (start : ShogiBoard) (outcome : Int) (s : GameState F) : Prop where
  range : outcome = sign s.board.sideToMove ∨ outcome = 0 ∨ outcome = -sign s.board.sideToMove
  loss : outcome = -sign s.board.sideToMove → s.board.generateLegalMoves = [] ∨
    (s.board.checkRepetition 0).1 = .loss ∨
    ResignFired ops o noResign s.board.sideToMove s.searched
  win : outcome = sign s.board.sideToMove → s.board.canDeclareWin = true ∨
    (s.board.checkRepetition 0).1 = .win
  draw : outcome = 0 → FourthOccurrence start s ∨ o.maxPly ≤ s.board.ply

/-- A record tells the outcome from the side to move of its position, and which moves the search
visited there. -/
structure Faithful (b : ShogiBoard) (t : TreeResult F) (outcome : Int) (r : Record) : Prop where
  result : r.head.result = if b.sideToMove = .black then outcome else -outcome
  legal : ∀ e ∈ r.dist, ∃ i m, b.generateLegalMoves[i]? = some m ∧ 0 < t.moveCount i ∧
    e.move = m.raw
  most : ∀ i m, b.generateLegalMoves[i]? = some m → 0 < t.moveCount i →
    (∀ j < b.generateLegalMoves.length, t.moveCount j ≤ t.moveCount i) →
    ∃ e ∈ r.dist, e.move = m.raw ∧ e.visits = 65535#16

/-- The packed position of a record is the given one. -/
def Decodes (b : ShogiBoard) (r : Record) : Prop :=
  ∀ gamePly, ∃ b', ShogiBoard.setFromPackedSfen r.head.sfen gamePly = some b' ∧
    b'.board = b.board ∧ (∀ c pt, (b'.hand c).count pt = (b.hand c).count pt) ∧
    b'.sideToMove = b.sideToMove

/-- A game with a truthful label and faithful records. The records are those of some of the searched
boards in their order, and these are the first boards of the game. -/
structure Truthful (g : Game F) : Prop where
  label : TruthfulLabel ops o noResign g.start g.outcome g.last
  board : g.last.board = g.start.playedOut g.last.movesPlayed
  boards : g.last.searched.map Prod.fst <+:
    g.start.boardsBefore g.last.movesPlayed ++ [g.last.board]
  records : ∃ l : List ((ShogiBoard × TreeResult F) × Record),
    (l.map Prod.fst).Sublist g.last.searched ∧ l.map Prod.snd = g.records ∧
    ∀ x ∈ l, Faithful x.1.1 x.1.2 g.outcome x.2 ∧ (g.start.Playable → Decodes x.1.1 x.2)

end Truth

/-! ## The opening -/

section Opening

variable {F : Type} {o : Options F} {book : List (List Char)} {draws : Nat → Draws}
  {move : Nat → Nat} {b b' : ShogiBoard} {n : Nat}

/-- The first and the last rank of the start position. -/
def backRank (c : Color) : List SfenItem :=
  [PieceType.lance, .knight, .silver, .gold, .king, .gold, .silver, .knight, .lance].map (.man c)

/-- The ranks of the start position. -/
def startRanks : List (List SfenItem) :=
  [backRank .white, [.gap 1, .man .white .rook, .gap 5, .man .white .bishop, .gap 1],
    List.replicate 9 (.man .white .pawn), [.gap 9], [.gap 9], [.gap 9],
    List.replicate 9 (.man .black .pawn),
    [.gap 1, .man .black .bishop, .gap 5, .man .black .rook, .gap 1], backRank .black]

theorem wellFormed_kStartingSfen : WellFormedSfen kStartingSfen :=
  ⟨⟨startRanks, rfl, by decide, by decide, by decide⟩, rfl⟩

/-- The start position is a legal position. -/
theorem playable_startPos (h : ShogiBoard.setFromSfen kStartingSfen = .ok b) : b.Playable := by
  have hget : (ShogiBoard.setFromSfen kStartingSfen).toOption.getD .new = b := by
    rw [h]
    rfl
  have hsetUp : b.SetUp := Or.inr ⟨kStartingSfen, wellFormed_kStartingSfen, h⟩
  have hkings : ∀ c, (((ShogiBoard.setFromSfen kStartingSfen).toOption.getD .new).kingSq c).isSome =
      true := by
    intro c
    cases c <;> rfl
  have hsafe : ((ShogiBoard.setFromSfen kStartingSfen).toOption.getD .new).inCheck .white = false := by
    decide +kernel
  have hturn : ((ShogiBoard.setFromSfen kStartingSfen).toOption.getD .new).sideToMove = .black := rfl
  rw [hget] at hkings hsafe hturn
  exact ⟨hsetUp.fresh.consistent, hkings, by rw [hturn]; exact hsafe⟩

/-- Random plies lead to legal positions. -/
theorem playable_playRandom (hb : b.Playable) : (playRandom move n b).1.Playable := by
  induction n generalizing b with
  | zero => exact hb
  | succ n ih =>
    rw [playRandom]
    split
    · exact hb
    · obtain hm | ⟨m, hm⟩ := Option.eq_none_or_eq_some
        (b.generateLegalMoves[move n % b.generateLegalMoves.length]?)
      · rw [hm]
        exact hb
      · rw [hm]
        exact ih (hb.doMoveInternal (List.mem_of_getElem? hm))

theorem playable_setupStart {d : Draws} (hbook : ∀ sfen ∈ book, ∀ b,
    ShogiBoard.setFromSfen sfen = .ok b → b.Playable) (h : (setupStart o book d).1 = some b) :
    b.Playable := by
  obtain hnone | ⟨base, hbase⟩ := Option.eq_none_or_eq_some (baseBoard book d.line)
  · rw [setupStart, hnone] at h
    cases h
  · rw [setupStart, hbase] at h
    cases h
    refine playable_playRandom ?_
    have hok : ∀ sfen, (ShogiBoard.setFromSfen sfen).toOption = some base →
        ShogiBoard.setFromSfen sfen = .ok base := by
      intro sfen h
      cases hres : ShogiBoard.setFromSfen sfen with
      | error e =>
        rw [hres] at h
        cases h
      | ok c =>
        rw [hres] at h
        cases h
        rfl
    have hline := hok _ hbase
    obtain hget | ⟨sfen, hget⟩ := Option.eq_none_or_eq_some book[d.line % book.length]?
    · rw [List.getD_eq_getElem?_getD, hget, Option.getD_none] at hline
      exact playable_startPos hline
    · rw [List.getD_eq_getElem?_getD, hget, Option.getD_some] at hline
      exact hbook sfen (List.mem_of_getElem? hget) base hline

/-- The opening is a legal position if the lines of the book are. -/
theorem playable_openingBoard (hbook : ∀ sfen ∈ book, ∀ b,
    ShogiBoard.setFromSfen sfen = .ok b → b.Playable) (h : openingBoard o book draws n = some b) :
    b.Playable := by
  induction n with
  | zero => cases h
  | succ n ih =>
    rw [openingBoard] at h
    split at h
    · exact playable_setupStart hbook h
    · exact ih h

/-- A book of one line, without random plies. -/
theorem openingBoard_single {sfen : List Char} (ho : o.randomPlies ≤ 0)
    (h : ShogiBoard.setFromSfen sfen = .ok b) : openingBoard o [sfen] draws (n + 1) = some b := by
  have hattempt : ∀ d : Draws, (setupStart o [sfen] d).1 = some b := by
    intro d
    have hbase : baseBoard [sfen] d.line = some b := by
      rw [baseBoard, List.length_singleton, Nat.mod_one, List.getD_cons_zero, h]
      rfl
    rw [setupStart, hbase, Option.elim_some, if_neg (by omega)]
    rfl
  induction n with
  | zero =>
    rw [openingBoard, if_pos (by simp)]
    exact hattempt _
  | succ n ih =>
    rw [openingBoard]
    split
    · exact hattempt _
    · exact ih

end Opening

/-! ## Records -/

section Records

variable {F : Type} {ops : FloatOps F} {noResign : Bool} {outcome : Int} {b b' : ShogiBoard}
  {t : TreeResult F} {r : Record} {dist : List (Move × Int)} {e : DistEntry}

theorem mul_sign (c : Color) : outcome * sign c = if c = .black then outcome else -outcome := by
  rw [sign]
  split
  · exact mul_one _
  · exact mul_neg_one _

theorem le_foldl_max {l : List (Move × Int)} (init : Int) :
    init ≤ l.foldl (fun maxV x => max maxV x.2) init ∧
      ∀ x ∈ l, x.2 ≤ l.foldl (fun maxV x => max maxV x.2) init := by
  induction l generalizing init with
  | nil => exact ⟨le_rfl, fun x hx => by cases hx⟩
  | cons y l ih =>
    obtain ⟨hinit, hl⟩ := ih (max init y.2)
    refine ⟨(le_max_left _ _).trans hinit, fun x hx => ?_⟩
    obtain rfl | hx := List.mem_cons.mp hx
    · exact (le_max_right _ _).trans hinit
    · exact hl x hx

theorem foldl_max_le {l : List (Move × Int)} {init v : Int} (hinit : init ≤ v)
    (h : ∀ x ∈ l, x.2 ≤ v) : l.foldl (fun maxV x => max maxV x.2) init ≤ v := by
  induction l generalizing init with
  | nil => exact hinit
  | cons y l ih =>
    exact ih (max_le hinit (h y List.mem_cons_self)) fun x hx => h x (List.mem_cons_of_mem _ hx)

/-- The most visited move decides the maximum. -/
theorem maxVisits_eq {x : Move × Int} (hx : x ∈ dist) (hpos : 0 ≤ x.2) (h : ∀ y ∈ dist, y.2 ≤ x.2) :
    maxVisits dist = x.2 :=
  le_antisymm (foldl_max_le hpos h) ((le_foldl_max 0).2 x hx)

/-- Entries are made of the visited moves. -/
theorem mem_distEntries : e ∈ distEntries dist ↔ ∃ x ∈ dist, 0 < x.2 ∧ e.move = x.1.raw ∧
    e.visits = BitVec.ofInt 16 (max 1 (65535 * x.2 / max (maxVisits dist) 1)) := by
  rw [distEntries, List.mem_filterMap]
  refine exists_congr fun x => and_congr_right fun _ => ?_
  by_cases hx : x.2 ≤ 0
  · rw [if_pos hx]
    exact iff_of_false (fun h => by cases h) fun h => absurd h.1 (by omega)
  · rw [if_neg hx, Option.some.injEq]
    constructor
    · rintro rfl
      exact ⟨by omega, rfl, rfl⟩
    · rintro ⟨-, hmove, hvisits⟩
      cases e
      rw [← hmove, ← hvisits]

/-- The most visited move gets the largest word. -/
theorem exists_most {x : Move × Int} (hx : x ∈ dist) (hpos : 0 < x.2) (h : ∀ y ∈ dist, y.2 ≤ x.2) :
    ∃ e ∈ distEntries dist, e.move = x.1.raw ∧ e.visits = 65535#16 := by
  refine ⟨⟨x.1.raw, 65535#16⟩, mem_distEntries.mpr ⟨x, hx, hpos, rfl, ?_⟩, rfl, rfl⟩
  have hmax : max (maxVisits dist) 1 = x.2 := by
    rw [maxVisits_eq hx hpos.le h]
    omega
  rw [hmax, Int.mul_ediv_cancel _ hpos.ne']
  rfl

/-- The moves and the counts of a search with at least two legal moves. -/
theorem mem_rootVisits (hlen : 2 ≤ b.generateLegalMoves.length) {x : Move × Int} :
    x ∈ (searchRun ops b t).rootVisits ↔
      ∃ i, b.generateLegalMoves[i]? = some x.1 ∧ x.2 = max 0 (t.moveCount i) := by
  rw [searchRun_of_two hlen, List.mem_iff_getElem?]
  refine exists_congr fun i => ?_
  rw [List.getElem?_mapIdx, Option.map_eq_some_iff]
  constructor
  · rintro ⟨m, hm, rfl⟩
    exact ⟨hm, rfl⟩
  · rintro ⟨hm, hv⟩
    exact ⟨x.1, hm, Prod.ext rfl hv.symm⟩

/-- What goes into the record of a position. -/
theorem makeRecord_eq_some {p : PositionRecord} : makeRecord noResign outcome p = some r →
    (∃ b' packed, ShogiBoard.setFromSfen p.sfen = .ok b' ∧ b'.toPackedSfen = some packed ∧
      r.head.sfen = packed.packed) ∧ r.head.result = outcome * sign p.stm ∧
      r.dist = distEntries p.dist := by
  intro h
  obtain ⟨b', hb', h⟩ := Option.bind_eq_some_iff.mp h
  obtain ⟨packed, hpacked, rfl⟩ := Option.map_eq_some_iff.mp h
  refine ⟨⟨b', packed, ?_, hpacked, rfl⟩, rfl, rfl⟩
  cases hres : ShogiBoard.setFromSfen p.sfen with
  | error e =>
    rw [hres] at hb'
    cases hb'
  | ok c =>
    rw [hres] at hb'
    cases hb'
    rfl

/-- The record of a searched board is faithful. -/
theorem faithful_makeRecord (hlen : 2 ≤ b.generateLegalMoves.length)
    (h : makeRecord noResign outcome (positionRecord ops b (searchRun ops b t)) = some r) :
    Faithful b t outcome (writeRecord r) := by
  obtain ⟨-, hresult, hdist⟩ := makeRecord_eq_some h
  have hentries : (writeRecord r).dist = distEntries (searchRun ops b t).rootVisits := hdist
  refine ⟨?_, fun e he => ?_, fun i m hm hpos hmost => ?_⟩
  · exact hresult.trans (mul_sign _)
  · rw [hentries] at he
    obtain ⟨x, hx, hpos, hmove, -⟩ := mem_distEntries.mp he
    obtain ⟨i, hi, hv⟩ := (mem_rootVisits hlen).mp hx
    exact ⟨i, x.1, hi, by omega, hmove⟩
  · rw [hentries]
    refine @exists_most _ (m, t.moveCount i) ?_ hpos fun y hy => ?_
    · exact (mem_rootVisits hlen).mpr ⟨i, hm, by omega⟩
    · obtain ⟨j, hj, hv⟩ := (mem_rootVisits hlen).mp hy
      have hle := hmost j (List.getElem?_eq_some_iff.mp hj).1
      rw [hv]
      exact max_le hpos.le hle

/-- The record of a legal position packs that position. -/
theorem decodes_makeRecord (hb : b.Agree)
    (h : makeRecord noResign outcome (positionRecord ops b (searchRun ops b t)) = some r) :
    Decodes b (writeRecord r) := by
  obtain ⟨⟨b₁, packed, hb₁, hpacked, hsfen⟩, -, -⟩ := makeRecord_eq_some h
  obtain ⟨b₂, hb₂, hfresh, hboard, hcount, -, hturn, -⟩ := ShogiBoard.exists_setFromSfen_toSfen hb
  have heq : b₁ = b₂ := Except.ok.inj (hb₁.symm.trans hb₂)
  subst heq
  intro gamePly
  obtain ⟨b', hset, hboard', hcount', -, hturn', -⟩ :=
    ShogiBoard.exists_setFromPackedSfen hfresh.consistent hpacked gamePly
  refine ⟨b', ?_, hboard'.trans hboard, fun c pt => (hcount' c pt).trans (hcount c pt),
    hturn'.trans hturn⟩
  change ShogiBoard.setFromPackedSfen r.head.sfen gamePly = some b'
  rw [hsfen]
  exact hset

/-- What a partial function makes of a list comes from a sublist. -/
theorem exists_sublist_filterMap {α β : Type} {f : α → Option β} (l : List α) :
    ∃ l' : List (α × β), (l'.map Prod.fst).Sublist l ∧ l'.map Prod.snd = l.filterMap f ∧
      ∀ x ∈ l', f x.1 = some x.2 := by
  induction l with
  | nil => exact ⟨[], List.Sublist.slnil, rfl, fun x hx => by cases hx⟩
  | cons a l ih =>
    obtain ⟨l', hsub, hmap, hf⟩ := ih
    obtain hnone | ⟨y, hy⟩ := Option.eq_none_or_eq_some (f a)
    · exact ⟨l', hsub.cons a, by rw [hmap, List.filterMap_cons_none hnone], hf⟩
    · refine ⟨(a, y) :: l', hsub.cons_cons a, ?_, fun x hx => ?_⟩
      · rw [List.map_cons, hmap, List.filterMap_cons_some hy]
      · obtain rfl | hx := List.mem_cons.mp hx
        · exact hy
        · exact hf x hx

/-- The records of a game, when its loop has left what it keeps. -/
theorem exists_records {o : Options F} {s : GameState F} (h : Noted ops o b s) :
    ∃ l : List ((ShogiBoard × TreeResult F) × Record),
      (l.map Prod.fst).Sublist s.searched ∧
      l.map Prod.snd = (s.game.filterMap (makeRecord noResign outcome)).map writeRecord ∧
      ∀ x ∈ l, Faithful x.1.1 x.1.2 outcome x.2 ∧ (b.Playable → Decodes x.1.1 x.2) := by
  obtain ⟨l, hsub, hmap, hl⟩ := @exists_sublist_filterMap _ _ (fun x : ShogiBoard × TreeResult F =>
    (makeRecord noResign outcome (positionRecord ops x.1 (searchRun ops x.1 x.2))).map writeRecord)
    s.searched
  refine ⟨l, hsub, ?_, fun x hx => ?_⟩
  · rw [hmap, h.game, List.filterMap_map, List.map_filterMap]
    rfl
  · obtain ⟨r, hr, hwrite⟩ := Option.map_eq_some_iff.mp (hl x hx)
    have hmem : x.1 ∈ s.searched := hsub.subset (List.mem_map_of_mem hx)
    rw [← hwrite]
    exact ⟨faithful_makeRecord (h.wide x.1 hmem) hr, fun hb =>
      decodes_makeRecord ((h.playable hb).2 x.1 hmem).consistent.toAgree hr⟩

end Records

/-! ## Labels -/

section Labels

variable {F : Type} {ops : FloatOps F} {o : Options F} {noResign : Bool} {c : Choice F}
  {s u : GameState F} {b : ShogiBoard} {r : Int} {col : Color}

theorem sign_ne_neg : ∀ c, sign c ≠ -sign c := by decide

theorem sign_ne_zero : ∀ c, sign c ≠ 0 := by decide

/-- The counter sees every row of low values. -/
theorem length_le_lowRun {qs vs : List F} (h : qs <:+ vs)
    (hlow : ∀ q ∈ qs, ops.lt q o.resignThreshold = true) : qs.length ≤ lowRun ops o vs := by
  obtain ⟨front, rfl⟩ := h
  rw [lowRun, List.reverse_append, List.takeWhile_append_of_pos, List.length_append,
    List.length_reverse]
  · exact Nat.le_add_right _ _
  · exact fun q hq => hlow q (List.mem_reverse.mp hq)

/-- The counter counts such a row. -/
theorem exists_row (vs : List F) : ∃ qs, qs <:+ vs ∧ qs.length = lowRun ops o vs ∧
    ∀ q ∈ qs, ops.lt q o.resignThreshold = true := by
  refine ⟨(vs.reverse.takeWhile fun q => ops.lt q o.resignThreshold).reverse, ?_,
    List.length_reverse, fun q hq => ?_⟩
  · have hrow := List.reverse_suffix.mpr
      (List.takeWhile_prefix (fun q => ops.lt q o.resignThreshold) (l := vs.reverse))
    rwa [List.reverse_reverse] at hrow
  · have hlow := List.mem_takeWhile_imp (List.mem_reverse.mp hq)
    exact hlow

/-- Whenever a pass begins, the rule has not fired. -/
theorem Kept.not_resignFired (h : Kept ops o noResign b s) :
    ¬ ResignFired ops o noResign col s.searched := by
  rintro ⟨henabled, qs, hsuffix, hne, hplies, hlow⟩
  have hlen := length_le_lowRun hsuffix hlow
  have hpos : 0 < qs.length := List.length_pos_iff.mpr hne
  have hcount := h.lowQ col
  have hbelow := h.below henabled col (by omega)
  omega

/-- When the loop is left by resignation, the rule has fired. -/
theorem Kept.resignFired (h : Kept ops o noResign b s)
    (hlen : 2 ≤ s.board.generateLegalMoves.length) (hres : Resigns ops o noResign c s) :
    ResignFired ops o noResign s.board.sideToMove (s.record ops o c.tree).searched := by
  have hcount := (h.toNoted.record (u := c.tree) hlen).lowQ s.board.sideToMove
  rw [lowQ_record hlen, Function.update_self, if_pos hres.low] at hcount
  obtain ⟨qs, hsuffix, hlength, hlow⟩ :=
    @exists_row _ ops o (ownValues s.board.sideToMove (s.record ops o c.tree).searched)
  have henough := hres.enough
  have hnonneg : 0 ≤ s.lowQ s.board.sideToMove := by
    rw [h.lowQ]
    exact Int.natCast_nonneg _
  refine ⟨hres.enabled, qs, hsuffix, ?_, by omega, hlow⟩
  rintro rfl
  rw [List.length_nil] at hlength
  omega

theorem playedOut_append {base : ShogiBoard} {moves plies : List Move} :
    base.playedOut (moves ++ plies) = (base.playedOut plies).playedOut moves := by
  induction moves with
  | nil => rfl
  | cons m ms ih => exact congrArg (·.doMove m) ih

/-- Three matching entries of the history are three earlier occurrences. -/
theorem Kept.fourthOccurrence (h : Kept ops o noResign b s) (hcount : 3 ≤ s.board.repetitionCount) :
    FourthOccurrence b s := by
  refine ⟨hcount, fun base plies hhistory hstart hsep => ?_⟩
  have hboard : base.playedOut (s.movesPlayed ++ plies) = s.board := by
    rw [playedOut_append, ← hstart, h.board]
  have hle := ShogiBoard.repetitionCount_le hhistory hsep
  rw [hboard] at hle
  exact hcount.trans hle

/-- Each exit in front of the search has its reason. -/
theorem Kept.truthfulLabel_of_early (h : Kept ops o noResign b s)
    (hearly : earlyOutcome o s.board = some r) : TruthfulLabel ops o noResign b r s := by
  have hne := sign_ne_neg s.board.sideToMove
  have hzero := sign_ne_zero s.board.sideToMove
  rcases earlyOutcome_eq_some hearly with ⟨hreason, rfl⟩ | ⟨hreason, rfl⟩ | ⟨hreason, rfl⟩ |
    ⟨hreason, rfl⟩ | ⟨hreason, rfl⟩ | ⟨hreason, rfl⟩
  · exact ⟨Or.inr (Or.inr rfl), fun _ => Or.inl hreason, fun e => absurd e.symm hne,
      fun e => absurd (Int.neg_eq_zero.mp e) hzero⟩
  · exact ⟨Or.inl rfl, fun e => absurd e hne, fun _ => Or.inl hreason, fun e => absurd e hzero⟩
  · exact ⟨Or.inr (Or.inr rfl), fun _ => Or.inr (Or.inl hreason), fun e => absurd e.symm hne,
      fun e => absurd (Int.neg_eq_zero.mp e) hzero⟩
  · exact ⟨Or.inl rfl, fun e => absurd e hne, fun _ => Or.inr hreason, fun e => absurd e hzero⟩
  · exact ⟨Or.inr (Or.inl rfl), fun e => absurd (Int.neg_eq_zero.mp e.symm) hzero,
      fun e => absurd e.symm hzero, fun _ => Or.inl (h.fourthOccurrence hreason)⟩
  · exact ⟨Or.inr (Or.inl rfl), fun e => absurd (Int.neg_eq_zero.mp e.symm) hzero,
      fun e => absurd e.symm hzero, fun _ => Or.inr hreason⟩

/-- So has resignation. -/
theorem Kept.truthfulLabel_of_resigns (h : Kept ops o noResign b s)
    (hlen : 2 ≤ s.board.generateLegalMoves.length) (hres : Resigns ops o noResign c s) :
    TruthfulLabel ops o noResign b (-sign s.board.sideToMove) (s.record ops o c.tree) where
  range := Or.inr (Or.inr rfl)
  loss _ := Or.inr (Or.inr (h.resignFired hlen hres))
  win e := absurd e.symm (sign_ne_neg _)
  draw e := absurd (Int.neg_eq_zero.mp e) (sign_ne_zero _)

/-- A forced move has none. -/
theorem Kept.not_truthfulLabel (h : Kept ops o noResign b s) (hforced : Forced o s) :
    ¬ TruthfulLabel ops o noResign b (-sign s.board.sideToMove) s := by
  intro hlabel
  obtain ⟨hmoves, -, hrep, -, -⟩ := not_exit_of_early hforced.early
  rcases hlabel.loss rfl with hnone | hloss | hfired
  · exact hmoves hnone
  · exact hrep hloss
  · exact h.not_resignFired hfired

/-- The searched boards are those on which the moves were made. -/
theorem Kept.boards_prefix (h : Kept ops o noResign b s) :
    s.searched.map Prod.fst <+: b.boardsBefore s.movesPlayed ++ [s.board] := by
  rw [h.boards]
  exact List.prefix_append _ _

/-- After a resignation, the last board is among them. -/
theorem Kept.boards_record (h : Kept ops o noResign b s) {t : TreeResult F} :
    (s.record ops o t).searched.map Prod.fst <+: b.boardsBefore s.movesPlayed ++ [s.board] := by
  rw [← h.boards]
  exact ⟨[], (List.append_nil _).trans List.map_append⟩

/-- A game is truthful iff none of its passes reaches the search with exactly one legal move. -/
theorem truthful_iff {book : List (List Char)} {draws : Nat → Draws} {choices : List (Choice F)}
    {g : Game F} (hg : playGame ops o noResign book draws choices = some g) :
    Truthful ops o noResign g ↔ ∀ s ∈ g.passes, ¬ Forced o s := by
  obtain ⟨b, -, hg⟩ := Option.bind_eq_some_iff.mp hg
  obtain ⟨p, hp, rfl⟩ := Option.map_eq_some_iff.mp hg
  obtain ⟨front, s, c, hpasses, hs, hover, hfront⟩ :=
    playLoop_spec (fun c s t (h : Kept ops o noResign b s) hturn => h.next hturn) kept_start hp
  have hmem : s ∈ p.passes := by
    rw [hpasses]
    exact List.mem_append_right _ (List.mem_singleton_self s)
  constructor
  · intro h t ht hforced
    change t ∈ p.passes at ht
    rw [hpasses] at ht
    obtain ht | ht := List.mem_append.mp ht
    · -- the passes before the last one have a choice
      obtain ⟨d, w, hnext⟩ := hfront t ht
      have hlen := (turn_next hnext).2.1
      have hone := hforced.one
      omega
    · rw [List.mem_singleton.mp ht] at hforced
      have hlabel : TruthfulLabel ops o noResign b p.outcome p.last := h.label
      rw [turn_of_not_early hforced.early, searchTurn_of_one hforced.one] at hover
      injection hover with houtcome hlast
      rw [← houtcome, ← hlast] at hlabel
      exact hs.not_truthfulLabel hforced hlabel
  · intro hnot
    rcases turn_over hover with ⟨hearly, hlast⟩ | ⟨hforced, -, -⟩ | ⟨-, hlen, hres, houtcome, hlast⟩
    · have hlabel := hs.truthfulLabel_of_early hearly
      rw [← hlast] at hlabel hs
      exact ⟨hlabel, hs.board, hs.boards_prefix, exists_records hs.toNoted⟩
    · exact absurd hforced (hnot s hmem)
    · have hlabel := hs.truthfulLabel_of_resigns hlen hres
      have hnoted := hs.toNoted.record (u := c.tree) hlen
      have hboard : (s.record ops o c.tree).board = _ := hs.board
      have hboards := hs.boards_record (t := c.tree)
      rw [← hlast, ← houtcome] at hlabel
      rw [← hlast] at hnoted hboard
      refine ⟨hlabel, ?_, ?_, exists_records hnoted⟩
      · change p.last.board = b.playedOut p.last.movesPlayed
        rw [hboard, hlast]
        rfl
      · change p.last.searched.map Prod.fst <+: b.boardsBefore p.last.movesPlayed ++ [p.last.board]
        rw [hlast]
        exact hboards

/-- A game with an opening comes to its end. -/
theorem exists_playGame {book : List (List Char)} {draws : Nat → Draws} {choices : List (Choice F)}
    (hb : openingBoard o book draws 16 = some b) (h : (o.maxPly - b.ply).toNat < choices.length) :
    ∃ g, playGame ops o noResign book draws choices = some g := by
  obtain ⟨p, hp⟩ : ∃ p, playLoop ops o noResign choices (.start b) = some p := exists_playLoop h
  exact ⟨_, by rw [playGame, hb, Option.bind_some, hp, Option.map_some]⟩

/-- The values are integers, and so is the threshold. -/
def intOps : FloatOps Int where
  lt x y := decide (x < y)
  scoreToCp := id
  half := 50

/-- No random plies, and a draw at the second ply. -/
def shortGame : Options Int where
  randomPlies := 0
  resignThreshold := 3
  resignPlies := 8
  maxPly := 2

def noDraws : Nat → Draws := fun _ => ⟨0, 0, id⟩

/-- A search that visits nothing. -/
def noVisits : Choice Int := ⟨⟨fun _ => 0, 50, none⟩, 0⟩

/-- A game of one move against a lone king. -/
theorem truthful_iff_loneKing :
    ∃ g, playGame intOps shortGame false [ShogiBoard.loneKingSfen] noDraws [noVisits, noVisits] =
      some g ∧ (Truthful intOps shortGame false g ↔ ∀ s ∈ g.passes, ¬ Forced shortGame s) := by
  have hopening : openingBoard shortGame [ShogiBoard.loneKingSfen] noDraws 16 =
      some ShogiBoard.loneKing := openingBoard_single le_rfl rfl
  obtain ⟨g, hg⟩ := @exists_playGame _ intOps shortGame false _ _ _ [noVisits, noVisits] hopening
    (by decide +kernel)
  exact ⟨g, hg, truthful_iff hg⟩

/-- Black's king in the corner has one step: `4k2r1/9/9/9/9/9/9/9/8K b - 1`. -/
def cornerSfen : List Char :=
  ['4', 'k', '2', 'r', '1', '/', '9', '/', '9', '/', '9', '/', '9', '/', '9', '/', '9', '/', '9',
    '/', '8', 'K', ' ', 'b', ' ', '-', ' ', '1']

/-- The board that it sets up. -/
def corner : ShogiBoard := (ShogiBoard.setFromSfen cornerSfen).toOption.getD .new

/-- No random plies, and draws at ply 320. -/
def longGame : Options Int := { shortGame with maxPly := 320 }

theorem forced_corner : Forced longGame (.start corner) where
  early := by decide +kernel
  one := by decide +kernel

/-- Black could step out of the corner, but loses. -/
theorem not_truthful_corner : ¬ ∀ (ops : FloatOps Int) (o : Options Int) (noResign : Bool)
    (book : List (List Char)) (draws : Nat → Draws) (choices : List (Choice Int)) (g : Game Int),
    playGame ops o noResign book draws choices = some g → Truthful ops o noResign g := by
  intro h
  have hopening : openingBoard longGame [cornerSfen] noDraws 16 = some corner :=
    openingBoard_single le_rfl rfl
  have hturn : turn intOps longGame false noVisits (.start corner) =
      .ended (-sign corner.sideToMove) (.start corner) := by
    rw [turn_of_not_early forced_corner.early]
    exact searchTurn_of_one forced_corner.one
  have hgame : playGame intOps longGame false [cornerSfen] noDraws [noVisits] =
      some ⟨⟨[.start corner], -sign corner.sideToMove, .start corner⟩, corner, []⟩ := by
    rw [playGame, hopening, Option.bind_some, playLoop, hturn]
    rfl
  exact kept_start.not_truthfulLabel forced_corner (h _ _ _ _ _ _ _ hgame).label

end Labels

end Shogi.Datagen
