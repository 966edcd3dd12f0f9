import ShogiEngine.Mcts.SearchRules
import ShogiEngine.Shogi.Repetition
import ShogiEngine.Shogi.SfenWriter

/-!
# Self-play games

`Worker::PlayGame`: the opening, the loop with its exits, and the early exits of `Search::Run` that it
meets.

## Main definitions

- `setupStart`, `openingBoard`: the opening
- `searchRun`: a search, up to the numbers that the tree search leaves at the root
- `turn`, `playLoop`: a pass of the loop, and the loop
- `Kept`: what holds whenever a pass begins

## Main results

- `turn_over`, `turn_next`: all that a pass can do
- `Kept.next`: a pass that plays on keeps the invariant
- `playLoop_spec`, `exists_playLoop`: the passes of a game, and the ply cap ends it
-/

namespace Shogi.Datagen

/-! ## The data -/

/-- The operations on `float` that the worker uses; `half` is the `root_q` of a fresh result. -/
structure FloatOps (F : Type) where
  lt : F → F → Bool
  scoreToCp : F → Int
  half : F

/-- The options that bear on the games. -/
structure Options (F : Type) where
  randomPlies : Int
  resignThreshold : F
  resignPlies : Int
  maxPly : Int

/-- What the tree search leaves at the root: `move_count` of each child, the value of the best child,
and that child, unless its value is below the threshold of the search. -/
structure TreeResult (F : Type) where
  moveCount : Nat → Int
  rootQ : F
  best : Option Nat

structure SearchResult (F : Type) where
  bestMove : Option Move
  rootVisits : List (Move × Int)
  rootQ : F

structure PositionRecord where
  sfen : List Char
  scoreCp : Int
  best : Option Move
  ply : Int
  stm : Color
  dist : List (Move × Int)
  deriving DecidableEq

/-- The variables of `PlayGame`, with the moves newest first. `searched` is no variable of the source:
it lists the boards that were searched and what the tree search left there. -/
structure GameState (F : Type) where
  board : ShogiBoard
  movesPlayed : List Move
  game : List PositionRecord
  lowQ : Color → Int
  searched : List (ShogiBoard × TreeResult F)

/-- What one pass takes from outside: the tree search and the random number of `PickMove`. -/
structure Choice (F : Type) where
  tree : TreeResult F
  pick : Nat

/-- `stm == BLACK ? 1 : -1`. -/
def sign (c : Color) : Int := if c = .black then 1 else -1

/-! ## The opening -/

/-- `kStartingSfen`. -/
def kStartingSfen : List Char :=
  ['l', 'n', 's', 'g', 'k', 'g', 's', 'n', 'l', '/', '1', 'r', '5', 'b', '1', '/',
    'p', 'p', 'p', 'p', 'p', 'p', 'p', 'p', 'p', '/', '9', '/', '9', '/', '9', '/',
    'P', 'P', 'P', 'P', 'P', 'P', 'P', 'P', 'P', '/', '1', 'B', '5', 'R', '1', '/',
    'L', 'N', 'S', 'G', 'K', 'G', 'S', 'N', 'L', ' ', 'b', ' ', '-', ' ', '1']

/-- The random numbers of an attempt at an opening. -/
structure Draws where
  line : Nat
  plies : Nat
  move : Nat → Nat

/-- The loop of `SetupStart`, with `n` plies left: the board, and whether the attempt succeeds. -/
def playRandom (move : Nat → Nat) : Nat → ShogiBoard → ShogiBoard × Bool
  | 0, b => (b, !b.generateLegalMoves.isEmpty)
  | n + 1, b =>
    if b.generateLegalMoves.isEmpty || b.canDeclareWin then (b, false)
    else
      (b.generateLegalMoves[move n % b.generateLegalMoves.length]?).elim (b, false) fun m =>
        playRandom move n (b.doMove m)

/-- The line of the book, or the start position. There is no board where the parser rejects it. -/
def baseBoard (book : List (List Char)) (line : Nat) : Option ShogiBoard :=
  (ShogiBoard.setFromSfen (book.getD (line % book.length) kStartingSfen)).toOption

/-- `SetupStart`. -/
def setupStart {F : Type} (o : Options F) (book : List (List Char)) (d : Draws) :
    Option ShogiBoard × Bool :=
  (baseBoard book d.line).elim (none, false) fun b =>
    let plies := if 0 < o.randomPlies then d.plies % (o.randomPlies.toNat + 1) else 0
    let r := playRandom d.move plies b
    (some r.1, r.2)

/-- The attempts, up to `n` of them: the board of the first one that succeeds, else of the last. -/
def openingBoard {F : Type} (o : Options F) (book : List (List Char)) (draws : Nat → Draws) :
    Nat → Option ShogiBoard
  | 0 => none
  | n + 1 =>
    let r := setupStart o book (draws n)
    if r.2 || n = 0 then r.1 else openingBoard o book draws n

/-! ## The search -/

section Model

variable {F : Type} (ops : FloatOps F) (o : Options F) (noResign : Bool)

/-- `BuildResult` at a root whose children are the legal moves. -/
def buildResult (legal : List Move) (t : TreeResult F) : SearchResult F :=
  if legal.isEmpty then { bestMove := none, rootVisits := [], rootQ := ops.half }
  else
    { bestMove := t.best.bind (legal[·]?)
      rootVisits := legal.mapIdx fun i m => (m, max 0 (t.moveCount i))
      rootQ := t.rootQ }

/-- `Search::Run`: with one legal move, there is no search and no distribution. -/
def searchRun (b : ShogiBoard) (t : TreeResult F) : SearchResult F :=
  let rootLegal := b.generateLegalMoves
  if rootLegal.isEmpty then buildResult ops rootLegal t
  else if rootLegal.length = 1 then
    { bestMove := rootLegal.head?, rootVisits := [], rootQ := ops.half }
  else buildResult ops rootLegal t

/-! ## The loop -/

/-- The `switch` over the answer of `CheckRepetition`. -/
def repetitionOutcome (b : ShogiBoard) : Option Int :=
  match (b.checkRepetition 0).1 with
  | .draw => if 3 ≤ b.repetitionCount then some 0 else none
  | .win => some (sign b.sideToMove)
  | .loss => some (-sign b.sideToMove)
  | .none => none

/-- The exits in front of the search. -/
def earlyOutcome (b : ShogiBoard) : Option Int :=
  if b.generateLegalMoves.isEmpty then some (-sign b.sideToMove)
  else if b.canDeclareWin then some (sign b.sideToMove)
  else (repetitionOutcome b).or (if o.maxPly ≤ b.ply then some 0 else none)

/-- `PickMove`: which entry it takes is left to the random numbers. -/
def pickMove (dist : List (Move × Int)) (pick : Nat) : Option Move :=
  (dist[pick]?.or dist.getLast?).map Prod.fst

/-- The `PositionRecord` of a board that has been searched. -/
def positionRecord (b : ShogiBoard) (result : SearchResult F) : PositionRecord where
  sfen := b.toSfen
  scoreCp := ops.scoreToCp result.rootQ
  best := result.bestMove.or (result.rootVisits.head?.map Prod.fst)
  ply := b.ply + 1
  stm := b.sideToMove
  dist := result.rootVisits

/-- The record is made and the count of low values brought up to date. -/
def GameState.record (s : GameState F) (t : TreeResult F) : GameState F :=
  let result := searchRun ops s.board t
  { s with
    game := s.game ++ [positionRecord ops s.board result]
    lowQ := Function.update s.lowQ s.board.sideToMove
      (if ops.lt result.rootQ o.resignThreshold then s.lowQ s.board.sideToMove + 1 else 0)
    searched := s.searched ++ [(s.board, t)] }

def GameState.play (s : GameState F) (m : Move) : GameState F :=
  { s with board := s.board.doMove m, movesPlayed := m :: s.movesPlayed }

/-- How a pass ends: the game is over, or there is another pass. -/
inductive Pass (F : Type)
  | ended (outcome : Int) (s : GameState F)
  | next (s : GameState F)

/-- The pass from the search on. -/
def searchTurn (c : Choice F) (s : GameState F) : Pass F :=
  let stm := s.board.sideToMove
  let result := searchRun ops s.board c.tree
  if result.rootVisits.isEmpty then .ended (-sign stm) s
  else
    let t := s.record ops o c.tree
    if ops.lt result.rootQ o.resignThreshold && decide (o.resignPlies ≤ t.lowQ stm) && !noResign then
      .ended (-sign stm) t
    else .next ((pickMove result.rootVisits c.pick).elim t t.play)

def Pass.elim {F α : Type} (pass : Pass F) (ended : Int → GameState F → α)
    (next : GameState F → α) : α :=
  match pass with
  | .ended outcome s => ended outcome s
  | .next s => next s

/-- One pass of the loop. -/
def turn (c : Choice F) (s : GameState F) : Pass F :=
  (earlyOutcome o s.board).elim (searchTurn ops o noResign c s) fun outcome => .ended outcome s

/-- The game once the loop is left: the variables at the start of each pass, and at the end. -/
structure Play (F : Type) where
  passes : List (GameState F)
  outcome : Int
  last : GameState F

/-- The loop; `none` if it asks for more than the given choices. -/
def playLoop : List (Choice F) → GameState F → Option (Play F)
  | [], _ => none
  | c :: cs, s =>
    (turn ops o noResign c s).elim
      (fun outcome t => some { passes := [s], outcome := outcome, last := t })
      fun t => (playLoop cs t).map fun p => { p with passes := s :: p.passes }

/-- The variables before the loop. -/
def GameState.start (b : ShogiBoard) : GameState F where
  board := b
  movesPlayed := []
  game := []
  lowQ _ := 0
  searched := []

end Model

/-! ## A pass -/

section Search

variable {F : Type} {ops : FloatOps F} {b : ShogiBoard} {t : TreeResult F}

/-- What a search of a board with at least two legal moves returns. -/
theorem searchRun_of_two (h : 2 ≤ b.generateLegalMoves.length) :
    searchRun ops b t =
      { bestMove := t.best.bind (b.generateLegalMoves[·]?)
        rootVisits := b.generateLegalMoves.mapIdx fun i m => (m, max 0 (t.moveCount i))
        rootQ := t.rootQ } := by
  have hne : b.generateLegalMoves.isEmpty = false := by
    rw [List.isEmpty_eq_false_iff, ← List.length_pos_iff]
    omega
  have hone : b.generateLegalMoves.length ≠ 1 := by omega
  simp only [searchRun, buildResult, hne, if_neg hone, Bool.false_eq_true, if_false]

/-- There is no distribution iff there are fewer than two moves. -/
theorem rootVisits_isEmpty_iff :
    (searchRun ops b t).rootVisits.isEmpty = true ↔ b.generateLegalMoves.length < 2 := by
  by_cases h : 2 ≤ b.generateLegalMoves.length
  · rw [searchRun_of_two h, List.isEmpty_iff, ← List.length_eq_zero_iff, List.length_mapIdx]
    omega
  · refine iff_of_true ?_ (by omega)
    rw [searchRun]
    split
    · rename_i hempty
      rw [buildResult, if_pos hempty]
      rfl
    · rename_i hempty
      rw [List.isEmpty_iff, ← List.length_eq_zero_iff] at hempty
      rw [if_pos (by omega)]
      rfl

/-- `PickMove` takes a move of the distribution. -/
theorem pickMove_spec {dist : List (Move × Int)} {pick : Nat} (h : dist ≠ []) :
    ∃ m ∈ dist.map Prod.fst, pickMove dist pick = some m := by
  obtain hnone | ⟨x, hx⟩ := Option.eq_none_or_eq_some dist[pick]?
  · refine ⟨(dist.getLast h).1, List.mem_map_of_mem (List.getLast_mem h), ?_⟩
    rw [pickMove, hnone, Option.none_or, List.getLast?_eq_getLast_of_ne_nil h]
    rfl
  · refine ⟨x.1, List.mem_map_of_mem (List.mem_of_getElem? hx), ?_⟩
    rw [pickMove, hx]
    rfl

end Search

section Turn

variable {F : Type} {ops : FloatOps F} {o : Options F} {noResign : Bool} {c : Choice F}
  {s t : GameState F} {r : Int}

/-- The search is reached with exactly one legal move. -/
structure Forced (o : Options F) (s : GameState F) : Prop where
  early : earlyOutcome o s.board = none
  one : s.board.generateLegalMoves.length = 1

/-- The resignation fires in this pass. -/
structure Resigns (ops : FloatOps F) (o : Options F) (noResign : Bool) (c : Choice F)
    (s : GameState F) : Prop where
  enabled : noResign = false
  low : ops.lt c.tree.rootQ o.resignThreshold = true
  enough : o.resignPlies ≤ s.lowQ s.board.sideToMove + 1

theorem length_pos_of_early (h : earlyOutcome o s.board = none) :
    0 < s.board.generateLegalMoves.length := by
  rw [List.length_pos_iff]
  intro hempty
  rw [earlyOutcome, hempty] at h
  cases h

theorem lowQ_record {u : TreeResult F} (hlen : 2 ≤ s.board.generateLegalMoves.length) :
    (s.record ops o u).lowQ = Function.update s.lowQ s.board.sideToMove
      (if ops.lt u.rootQ o.resignThreshold then s.lowQ s.board.sideToMove + 1 else 0) := by
  rw [GameState.record, searchRun_of_two hlen]

theorem resigns_iff (hlen : 2 ≤ s.board.generateLegalMoves.length) :
    (ops.lt (searchRun ops s.board c.tree).rootQ o.resignThreshold &&
      decide (o.resignPlies ≤ (s.record ops o c.tree).lowQ s.board.sideToMove) && !noResign) = true ↔
      Resigns ops o noResign c s := by
  rw [lowQ_record hlen, searchRun_of_two hlen, Function.update_self]
  simp only [Bool.and_eq_true, Bool.not_eq_true', decide_eq_true_eq]
  constructor
  · rintro ⟨⟨hlow, henough⟩, henabled⟩
    rw [if_pos hlow] at henough
    exact ⟨henabled, hlow, henough⟩
  · rintro ⟨henabled, hlow, henough⟩
    rw [if_pos hlow]
    exact ⟨⟨hlow, henough⟩, henabled⟩

/-- Without a distribution the side to move loses. -/
theorem searchTurn_of_one (hlen : s.board.generateLegalMoves.length = 1) :
    searchTurn ops o noResign c s = .ended (-sign s.board.sideToMove) s :=
  if_pos (rootVisits_isEmpty_iff.mpr (by omega))

theorem searchTurn_of_resigns (hlen : 2 ≤ s.board.generateLegalMoves.length)
    (h : Resigns ops o noResign c s) :
    searchTurn ops o noResign c s = .ended (-sign s.board.sideToMove) (s.record ops o c.tree) := by
  have hempty := mt (@rootVisits_isEmpty_iff _ ops s.board c.tree).mp (by omega)
  exact (if_neg hempty).trans (if_pos ((resigns_iff hlen).mpr h))

/-- Without resignation a legal move is made. -/
theorem searchTurn_of_not_resigns (hlen : 2 ≤ s.board.generateLegalMoves.length)
    (h : ¬ Resigns ops o noResign c s) : ∃ m ∈ s.board.generateLegalMoves,
      searchTurn ops o noResign c s = .next ((s.record ops o c.tree).play m) := by
  have hempty := mt (@rootVisits_isEmpty_iff _ ops s.board c.tree).mp (by omega)
  obtain ⟨m, hm, hpick⟩ := @pickMove_spec _ c.pick (mt List.isEmpty_iff.mpr hempty)
  refine ⟨m, ?_, ?_⟩
  · rw [searchRun_of_two hlen] at hm
    obtain ⟨x, hx, rfl⟩ := List.mem_map.mp hm
    obtain ⟨i, hi, rfl⟩ := List.mem_mapIdx.mp hx
    exact List.getElem_mem hi
  · refine (if_neg hempty).trans ((if_neg (mt (resigns_iff hlen).mp h)).trans ?_)
    rw [hpick]
    rfl

theorem turn_of_early (h : earlyOutcome o s.board = some r) :
    turn ops o noResign c s = .ended r s := by
  rw [turn, h, Option.elim_some]

theorem turn_of_not_early (h : earlyOutcome o s.board = none) :
    turn ops o noResign c s = searchTurn ops o noResign c s := by
  rw [turn, h, Option.elim_none]

/-- How a game is left: by an exit in front of the search, at a forced move, or by resignation. -/
theorem turn_over (h : turn ops o noResign c s = .ended r t) :
    (earlyOutcome o s.board = some r ∧ t = s) ∨
      (Forced o s ∧ r = -sign s.board.sideToMove ∧ t = s) ∨
      (earlyOutcome o s.board = none ∧ 2 ≤ s.board.generateLegalMoves.length ∧
        Resigns ops o noResign c s ∧ r = -sign s.board.sideToMove ∧ t = s.record ops o c.tree) := by
  obtain hearly | ⟨r', hearly⟩ := Option.eq_none_or_eq_some (earlyOutcome o s.board)
  · have hpos := length_pos_of_early hearly
    rw [turn_of_not_early hearly] at h
    by_cases hlen : 2 ≤ s.board.generateLegalMoves.length
    · by_cases hres : Resigns ops o noResign c s
      · rw [searchTurn_of_resigns hlen hres] at h
        cases h
        exact Or.inr (Or.inr ⟨hearly, hlen, hres, rfl, rfl⟩)
      · obtain ⟨m, -, hnext⟩ := searchTurn_of_not_resigns hlen hres
        rw [hnext] at h
        cases h
    · have hone : s.board.generateLegalMoves.length = 1 := by omega
      rw [searchTurn_of_one hone] at h
      cases h
      exact Or.inr (Or.inl ⟨⟨hearly, hone⟩, rfl, rfl⟩)
  · rw [turn_of_early hearly] at h
    cases h
    exact Or.inl ⟨hearly, rfl⟩

/-- A pass that plays on: no exit applies, and a legal move is made. -/
theorem turn_next (h : turn ops o noResign c s = .next t) :
    earlyOutcome o s.board = none ∧ 2 ≤ s.board.generateLegalMoves.length ∧
      ¬ Resigns ops o noResign c s ∧
      ∃ m ∈ s.board.generateLegalMoves, t = (s.record ops o c.tree).play m := by
  obtain hearly | ⟨r', hearly⟩ := Option.eq_none_or_eq_some (earlyOutcome o s.board)
  · have hpos := length_pos_of_early hearly
    rw [turn_of_not_early hearly] at h
    by_cases hlen : 2 ≤ s.board.generateLegalMoves.length
    · by_cases hres : Resigns ops o noResign c s
      · rw [searchTurn_of_resigns hlen hres] at h
        cases h
      · obtain ⟨m, hm, hnext⟩ := searchTurn_of_not_resigns hlen hres
        rw [hnext] at h
        cases h
        exact ⟨hearly, hlen, hres, m, hm, rfl⟩
    · rw [searchTurn_of_one (by omega)] at h
      cases h
  · rw [turn_of_early hearly] at h
    cases h

/-- The exits in front of the search, each with its outcome. -/
theorem earlyOutcome_eq_some {b : ShogiBoard} (h : earlyOutcome o b = some r) :
    (b.generateLegalMoves = [] ∧ r = -sign b.sideToMove) ∨
      (b.canDeclareWin = true ∧ r = sign b.sideToMove) ∨
      ((b.checkRepetition 0).1 = .loss ∧ r = -sign b.sideToMove) ∨
      ((b.checkRepetition 0).1 = .win ∧ r = sign b.sideToMove) ∨
      (3 ≤ b.repetitionCount ∧ r = 0) ∨ (o.maxPly ≤ b.ply ∧ r = 0) := by
  rw [earlyOutcome] at h
  split at h
  · rename_i hempty
    exact Or.inl ⟨List.isEmpty_iff.mp hempty, (Option.some.inj h).symm⟩
  · split at h
    · rename_i hwin
      exact Or.inr (Or.inl ⟨hwin, (Option.some.inj h).symm⟩)
    · obtain hrep | ⟨-, hcap⟩ := Option.or_eq_some_iff.mp h
      · rw [repetitionOutcome] at hrep
        split at hrep
        · split at hrep
          · rename_i hcount
            exact Or.inr (Or.inr (Or.inr (Or.inr (Or.inl ⟨hcount, (Option.some.inj hrep).symm⟩))))
          · cases hrep
        · rename_i hres
          exact Or.inr (Or.inr (Or.inr (Or.inl ⟨hres, (Option.some.inj hrep).symm⟩)))
        · rename_i hres
          exact Or.inr (Or.inr (Or.inl ⟨hres, (Option.some.inj hrep).symm⟩))
        · cases hrep
      · split at hcap
        · rename_i hply
          exact Or.inr (Or.inr (Or.inr (Or.inr (Or.inr ⟨hply, (Option.some.inj hcap).symm⟩))))
        · cases hcap

/-- Where the search is reached, none of the exits applies. -/
theorem not_exit_of_early {b : ShogiBoard} (h : earlyOutcome o b = none) :
    b.generateLegalMoves ≠ [] ∧ b.canDeclareWin = false ∧ (b.checkRepetition 0).1 ≠ .loss ∧
      (b.checkRepetition 0).1 ≠ .win ∧ b.ply < o.maxPly := by
  rw [earlyOutcome] at h
  split at h
  · cases h
  · rename_i hempty
    split at h
    · cases h
    · rename_i hwin
      obtain ⟨hrep, hcap⟩ := Option.or_eq_none_iff.mp h
      refine ⟨mt List.isEmpty_iff.mpr hempty, Bool.not_eq_true _ ▸ hwin, fun hres => ?_,
        fun hres => ?_, ?_⟩
      · rw [repetitionOutcome, hres] at hrep
        cases hrep
      · rw [repetitionOutcome, hres] at hrep
        cases hrep
      · by_contra hply
        rw [if_pos (by omega)] at hcap
        cases hcap

end Turn

/-! ## The passes of a game -/

section Loop

variable {F : Type} {ops : FloatOps F} {o : Options F} {noResign : Bool} {c : Choice F}
  {cs : List (Choice F)} {s t : GameState F} {b : ShogiBoard} {p : Play F}

/-- All passes but the last one play on, and the last one ends the game. -/
theorem playLoop_spec {I : GameState F → Prop}
    (hnext : ∀ c s t, I s → turn ops o noResign c s = .next t → I t) (hs : I s)
    (h : playLoop ops o noResign cs s = some p) :
    ∃ front u c, p.passes = front ++ [u] ∧ I u ∧
      turn ops o noResign c u = .ended p.outcome p.last ∧
      ∀ v ∈ front, ∃ c w, turn ops o noResign c v = .next w := by
  induction cs generalizing s p with
  | nil => cases h
  | cons c cs ih =>
    rw [playLoop] at h
    generalize hturn : turn ops o noResign c s = pass at h
    cases pass with
    | ended r t =>
      cases h
      exact ⟨[], s, c, rfl, hs, hturn, fun v hv => by cases hv⟩
    | next t =>
      obtain ⟨q, hq, rfl⟩ := Option.map_eq_some_iff.mp h
      obtain ⟨front, u, d, hpasses, hu, hover, hfront⟩ := ih (hnext c s t hs hturn) hq
      refine ⟨s :: front, u, d, congrArg (s :: ·) hpasses, hu, hover, fun v hv => ?_⟩
      obtain rfl | hv := List.mem_cons.mp hv
      · exact ⟨c, t, hturn⟩
      · exact hfront v hv

theorem ply_doMove {m : Move} : (b.doMove m).ply = b.ply + 1 :=
  ShogiBoard.ply_doMoveInternal b m true none

/-- The ply cap ends every game. -/
theorem exists_playLoop (h : (o.maxPly - s.board.ply).toNat < cs.length) :
    ∃ p, playLoop ops o noResign cs s = some p := by
  induction cs generalizing s with
  | nil => exact absurd h (Nat.not_lt_zero _)
  | cons c cs ih =>
    rw [playLoop]
    generalize hturn : turn ops o noResign c s = pass
    cases pass with
    | ended r t => exact ⟨_, rfl⟩
    | next t =>
      obtain ⟨hearly, -, -, m, -, rfl⟩ := turn_next hturn
      obtain ⟨-, -, -, -, hply⟩ := not_exit_of_early hearly
      have hply' : ((s.record ops o c.tree).play m).board.ply = s.board.ply + 1 := ply_doMove
      rw [List.length_cons] at h
      obtain ⟨q, hq⟩ := ih (s := (s.record ops o c.tree).play m) (by omega)
      exact ⟨_, by rw [Pass.elim, hq]; rfl⟩

/-! ## What the loop keeps -/

/-- The root values of the turns of one side, the first one first. -/
def ownValues (c : Color) (l : List (ShogiBoard × TreeResult F)) : List F :=
  (l.filter fun x => x.1.sideToMove = c).map fun x => x.2.rootQ

/-- How many of the last values are below the threshold. -/
def lowRun (ops : FloatOps F) (o : Options F) (qs : List F) : Nat :=
  (qs.reverse.takeWhile fun q => ops.lt q o.resignThreshold).length

/-- What the records and the counters say about the boards that have been searched. -/
structure Noted (ops : FloatOps F) (o : Options F) (b : ShogiBoard) (s : GameState F) : Prop where
  wide : ∀ x ∈ s.searched, 2 ≤ x.1.generateLegalMoves.length
  game : s.game = s.searched.map fun x => positionRecord ops x.1 (searchRun ops x.1 x.2)
  lowQ : ∀ c, s.lowQ c = lowRun ops o (ownValues c s.searched)
  playable : b.Playable → s.board.Playable ∧ ∀ x ∈ s.searched, x.1.Playable

/-- What holds whenever a pass begins, in a game from the board `b`. -/
structure Kept (ops : FloatOps F) (o : Options F) (noResign : Bool) (b : ShogiBoard)
    (s : GameState F) : Prop extends Noted ops o b s where
  board : s.board = b.playedOut s.movesPlayed
  boards : s.searched.map Prod.fst = b.boardsBefore s.movesPlayed
  below : noResign = false → ∀ c, 0 < s.lowQ c → s.lowQ c < o.resignPlies

theorem kept_start : Kept ops o noResign b (.start b) where
  wide x hx := by cases hx
  game := rfl
  lowQ c := rfl
  playable hb := ⟨hb, fun x hx => by cases hx⟩
  board := rfl
  boards := rfl
  below _ c hc := absurd hc (lt_irrefl 0)

theorem ownValues_append {col : Color} {l : List (ShogiBoard × TreeResult F)} {u : TreeResult F} :
    ownValues col (l ++ [(b, u)]) = ownValues col l ++ (if b.sideToMove = col then [u.rootQ] else []) := by
  rw [ownValues, List.filter_append, List.map_append, ownValues, List.filter_singleton]
  by_cases hc : b.sideToMove = col
  · simp [hc]
  · simp [hc]

theorem lowRun_append {qs : List F} {q : F} : lowRun ops o (qs ++ [q]) =
    if ops.lt q o.resignThreshold then lowRun ops o qs + 1 else 0 := by
  rw [lowRun, List.reverse_append, List.reverse_singleton, List.singleton_append, List.takeWhile_cons]
  split
  · rfl
  · rfl

theorem Noted.record (h : Noted ops o b s) {u : TreeResult F}
    (hlen : 2 ≤ s.board.generateLegalMoves.length) : Noted ops o b (s.record ops o u) where
  wide x hx := by
    obtain hx | hx := List.mem_append.mp hx
    · exact h.wide x hx
    · rw [List.mem_singleton.mp hx]
      exact hlen
  game := by
    change s.game ++ _ = (s.searched ++ _).map _
    rw [List.map_append, ← h.game]
    rfl
  lowQ c := by
    change _ = ((lowRun ops o (ownValues c (s.searched ++ [(s.board, u)])) : Nat) : Int)
    rw [lowQ_record hlen, ownValues_append, Function.update_apply]
    by_cases hc : s.board.sideToMove = c
    · rw [if_pos hc, if_pos hc.symm, lowRun_append, h.lowQ, hc]
      split
      · rfl
      · rfl
    · rw [if_neg hc, if_neg (Ne.symm hc), List.append_nil, h.lowQ]
  playable hb := by
    obtain ⟨hboard, hsearched⟩ := h.playable hb
    refine ⟨hboard, fun x hx => ?_⟩
    obtain hx | hx := List.mem_append.mp hx
    · exact hsearched x hx
    · rw [List.mem_singleton.mp hx]
      exact hboard

/-- A pass that plays on keeps the invariant. -/
theorem Kept.next (h : Kept ops o noResign b s) (hturn : turn ops o noResign c s = .next t) :
    Kept ops o noResign b t := by
  obtain ⟨-, hlen, hres, m, hm, rfl⟩ := turn_next hturn
  have hnoted := h.toNoted.record (u := c.tree) hlen
  refine ⟨⟨hnoted.wide, hnoted.game, hnoted.lowQ, fun hb => ?_⟩, ?_, ?_, fun henabled col hpos => ?_⟩
  · obtain ⟨hboard, hsearched⟩ := hnoted.playable hb
    exact ⟨hboard.doMoveInternal hm, hsearched⟩
  · exact congrArg (·.doMove m) h.board
  · change (s.searched ++ [(s.board, c.tree)]).map Prod.fst = b.boardsBefore (m :: s.movesPlayed)
    rw [List.map_append, h.boards, ShogiBoard.boardsBefore, ← h.board]
    rfl
  · change 0 < (s.record ops o c.tree).lowQ col at hpos
    change (s.record ops o c.tree).lowQ col < _
    rw [lowQ_record hlen, Function.update_apply] at hpos ⊢
    by_cases hc : col = s.board.sideToMove
    · rw [if_pos hc] at hpos ⊢
      by_cases hlow : ops.lt c.tree.rootQ o.resignThreshold = true
      · rw [if_pos hlow]
        by_contra hge
        exact hres ⟨henabled, hlow, by omega⟩
      · rw [if_neg hlow] at hpos
        exact absurd hpos (lt_irrefl 0)
    · rw [if_neg hc] at hpos ⊢
      exact h.below henabled col hpos

end Loop

end Shogi.Datagen
