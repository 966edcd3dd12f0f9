import ShogiEngine.Mate.CheckingGame

/-!
# The checking game on routes

The df-pn search does not go on where a board on its path comes back. This is the checking game on boards that
remember the hashes of the boards on the way to them.

## Main definitions

- `Route`: a board and its way; `routeGame`: the checking game on routes
- `Proves`, `After`: what is won for the attacker at a node, and after a move at a node
- `Holds`, `HoldsAfter`: the same for both verdicts

## Main results

- `Holds.of_exists`, `Holds.of_forall`: how a verdict about a node follows from verdicts about its moves
- `holdsAfter_iff`: a verdict after a move is one about the next node
- `wins_checkingGame`: a win on a route is a win in the checking game
-/

namespace Shogi

open ShogiBoard (checkingGame)

/-! ## Routes -/

/-- A board and the hashes of the boards on the way to it, its own one first. -/
structure Route where
  board : ShogiBoard
  path : List (BitVec 64)

namespace Route

/-- The root of a search. -/
def start (b : ShogiBoard) : Route := ⟨b, [b.hash]⟩

/-- The way goes on. -/
def move (x : Route) (m : Move) : Route := ⟨x.board.doMove m, (x.board.doMove m).hash :: x.path⟩

/-- Play goes on: the rules see no repetition, and the board is not on the way already. -/
def Fresh (x : Route) : Prop := x.board.repetition = .none ∧ x.board.hash ∉ x.path.tail

/-- The moves of a node: legal ones, and checks if the attacker is to move. -/
def Plays (orNode : Bool) (x : Route) (m : Move) : Prop :=
  x.board.position.Legal m ∧
    (orNode = true → (x.board.doMove m).position.InCheck (x.board.doMove m).sideToMove)

end Route

/-- The checking game in which play ends, and is not won, where a board on the way comes back. -/
def routeGame : AttackGame Route where
  attack x y := ∃ m, Route.Plays true x m ∧ y = x.move m
  reply x y := ∃ m, Route.Plays false x m ∧ y = x.move m
  attackWins y := checkingGame.attackWins y.board
  attackOpen y := y.Fresh
  replyLoses y := checkingGame.replyLoses y.board
  replyOpen y := y.Fresh

/-- Every board that comes back counts against the attacker, who can therefore play as in the checking game. -/
theorem simulates_routeGame : AttackGame.Simulates routeGame checkingGame (fun x b => x.board = b)
    fun x b => x.board = b := by
  refine ⟨?_, ?_, ?_, ?_, ?_, ?_⟩
  · rintro x y b rfl ⟨m, hm, rfl⟩
    exact ⟨_, ⟨m, hm.1, rfl, hm.2 rfl⟩, rfl⟩
  · rintro y b u rfl ⟨m, hm, rfl⟩
    exact ⟨y.move m, ⟨m, ⟨hm, fun h => by cases h⟩, rfl⟩, rfl⟩
  · rintro y b rfl h
    exact h
  · rintro y b rfl h
    exact h.1
  · rintro y b rfl h
    exact h
  · rintro y b rfl h
    exact h.1

theorem wins_checkingGame {x : Route} (h : routeGame.Wins x) : checkingGame.Wins x.board :=
  simulates_routeGame.wins rfl h

/-! ## Verdicts -/

/-- The attacker wins: by his own move at an OR node, against every reply at an AND node. -/
def Proves (orNode : Bool) (x : Route) : Prop :=
  if orNode then routeGame.Wins x
  else ∀ y, routeGame.reply x y → routeGame.replyLoses y ∨ routeGame.replyOpen y ∧ routeGame.Wins y

/-- The same after a move at a node of that kind. -/
def After (orNode : Bool) (y : Route) : Prop :=
  if orNode then routeGame.Refutes routeGame.Wins y
  else routeGame.replyLoses y ∨ routeGame.replyOpen y ∧ routeGame.Wins y

/-- A proof says that the attacker wins, a disproof that he does not. -/
def Holds (proof orNode : Bool) (x : Route) : Prop := if proof then Proves orNode x else ¬Proves orNode x

/-- The same after a move. -/
def HoldsAfter (proof orNode : Bool) (y : Route) : Prop := if proof then After orNode y else ¬After orNode y

section Verdicts

variable {proof orNode : Bool} {x y : Route} {m : Move}

theorem proves_or_iff : Proves true x ↔ ∃ m, x.Plays true m ∧ After true (x.move m) := by
  refine AttackGame.wins_iff.trans ⟨?_, ?_⟩
  · rintro ⟨y, ⟨m, hm, rfl⟩, h⟩
    exact ⟨m, hm, h⟩
  · rintro ⟨m, hm, h⟩
    exact ⟨_, ⟨m, hm, rfl⟩, h⟩

theorem proves_and_iff : Proves false x ↔ ∀ m, x.Plays false m → After false (x.move m) := by
  constructor
  · exact fun h m hm => h _ ⟨m, hm, rfl⟩
  · rintro h y ⟨m, hm, rfl⟩
    exact h m hm

/-- The side to move at a node decides it by one move. -/
theorem Holds.of_exists (hm : x.Plays orNode m) (h : HoldsAfter orNode orNode (x.move m)) :
    Holds orNode orNode x := by
  cases orNode
  · exact fun hno => h (proves_and_iff.mp hno m hm)
  · exact proves_or_iff.mpr ⟨m, hm, h⟩

/-- Against the side to move all its moves have to be met. -/
theorem Holds.of_forall (h : ∀ m, x.Plays orNode m → HoldsAfter (!orNode) orNode (x.move m)) :
    Holds (!orNode) orNode x := by
  cases orNode
  · exact proves_and_iff.mpr h
  · intro hno
    obtain ⟨m, hm, hafter⟩ := proves_or_iff.mp hno
    exact h m hm hafter

/-- Where play goes on, the next node decides. -/
theorem after_iff (hfresh : y.Fresh) : After orNode y ↔ Proves (!orNode) y := by
  cases orNode
  · constructor
    · rintro (hloses | ⟨-, hwins⟩)
      · cases hfresh.1.symm.trans hloses
      · exact hwins
    · exact fun h => Or.inr ⟨hfresh, h⟩
  · constructor
    · rintro ((hmate | hwins) | ⟨-, hreplies⟩)
      · rintro u ⟨m, hm, -⟩
        exact absurd hm.1 (hmate.2 m)
      · cases hfresh.1.symm.trans hwins
      · exact hreplies
    · exact fun h => Or.inr ⟨hfresh, h⟩

theorem holdsAfter_iff (hfresh : y.Fresh) : HoldsAfter proof orNode y ↔ Holds proof (!orNode) y := by
  cases proof
  · exact not_congr (after_iff hfresh)
  · exact after_iff hfresh

/-- A repetition that is decided for the attacker. -/
theorem HoldsAfter.of_repetition (h : y.board.repetition = if orNode then .loss else .win) :
    HoldsAfter true orNode y := by
  cases orNode
  · exact Or.inl h
  · exact Or.inl (Or.inr h)

/-- A checkmate is won, whatever has been repeated. -/
theorem HoldsAfter.of_checkmate (h : y.board.position.Checkmate) : HoldsAfter true true y := Or.inl (Or.inl h)

/-- Play ends, and it is not won. -/
theorem HoldsAfter.of_not_fresh (hfresh : ¬y.Fresh) (hrep : y.board.repetition ≠ if orNode then .loss else .win)
    (hmate : orNode = true → ¬y.board.position.Checkmate) : HoldsAfter false orNode y := by
  cases orNode
  · rintro (h | h)
    · exact hrep h
    · exact hfresh h.1
  · rintro ((h | h) | h)
    · exact hmate rfl h
    · exact hrep h
    · exact hfresh h.1

end Verdicts

end Shogi
