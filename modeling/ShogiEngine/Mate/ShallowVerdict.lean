import ShogiEngine.Library.Cancellation
import ShogiEngine.Mate.ShallowMate

/-!
# What a shallow mate probe answers

The verdict of a probe as a function of the board, and the two properties of the probe: it puts the
board back and answers the verdict unless it is cancelled, and a positive verdict is a bounded win
in the checking game.

## Main definitions

- `Env.verdict`: the answer of a probe that is never cancelled
- `Env.Sound`: what the probe relies on at the bottom

## Main results

- `yields_hasMateWithin`: the board and the answer of a probe under any answers of the outside world
- `hasMateWithin_sound`: a positive answer is a win within the depth
- `probeMateWithin_cancellation`: what `ProbeMateWithin` answers when it is stopped
-/

namespace Shogi

namespace ShallowMate

/-! ## The limits -/

namespace SearchLimits

variable {answers : Schedule} {l : SearchLimits} {j k : Nat}

/-- The limits after `k` calls of `ShouldStop`. -/
def polled (answers : Schedule) (l : SearchLimits) : Nat → SearchLimits
  | 0 => l
  | k + 1 => ((l.polled answers k).shouldStop answers).2

theorem polled_add : (l.polled answers j).polled answers k = l.polled answers (j + k) := by
  induction k with
  | zero => rfl
  | succ k ih => rw [polled, ih, ← Nat.add_assoc, polled]

/-- `ShouldStop` sets the flag iff it answers yes, and never clears it. -/
theorem cancelled_shouldStop : (l.shouldStop answers).2.cancelled =
    (l.cancelled || (l.shouldStop answers).1) := by
  rw [shouldStop]
  split
  · exact (Bool.or_true _).symm
  · exact (Bool.or_false _).symm

/-- After some calls the flag is set iff one of them answered yes. -/
theorem cancelled_polled (hl : l.cancelled = false) : (l.polled answers k).cancelled = true ↔
    ∃ j < k, ((l.polled answers j).shouldStop answers).1 = true := by
  induction k with
  | zero =>
    refine iff_of_false ?_ fun ⟨j, hj, _⟩ => absurd hj (Nat.not_lt_zero j)
    rw [polled, hl]
    exact Bool.false_ne_true
  | succ k ih =>
    rw [polled, cancelled_shouldStop, Bool.or_eq_true, ih]
    constructor
    · rintro (⟨j, hj, h⟩ | h)
      · exact ⟨j, Nat.lt_succ_of_lt hj, h⟩
      · exact ⟨k, Nat.lt_succ_self k, h⟩
    · rintro ⟨j, hj, h⟩
      by_cases hjk : j = k
      · exact Or.inr (hjk ▸ h)
      · exact Or.inl ⟨j, by omega, h⟩

end SearchLimits

namespace Env

variable (env : Env)

/-! ## The verdict -/

/-- `FindMateInOne`, for its answer alone. -/
def mateInOne (inCheck : Bool) (b : ShogiBoard) : Bool :=
  if inCheck then b.generateCheckingMoves.any fun m => !(b.doMove m).hasLegalEvasion
  else (env.findMateInOneNonCheck b).isSome

/-- A check refutes all answers, by repetition or on the board. -/
def checkWins (mated : ShogiBoard → Bool) (c : ShogiBoard) : Bool :=
  match c.repetition with
  | .loss => true
  | .win | .draw => false
  | .none => mated c

/-- An evasion fails, by repetition or on the board. -/
def evasionFails (mates : ShogiBoard → Bool) (c : ShogiBoard) : Bool :=
  match c.repetition with
  | .win => true
  | .loss | .draw => false
  | .none => mates c

/-- The verdict at an OR node, from the verdict on the boards after the checks. -/
def someCheck (mated : ShogiBoard → Bool) (inCheck : Bool) (b : ShogiBoard) : Bool :=
  (checkingMoves inCheck b).any fun m => checkWins mated (b.doMove m)

/-- The verdict at an AND node, from the verdict on the boards after the evasions. -/
def everyEvasion (fails : ShogiBoard → Bool) (b : ShogiBoard) : Bool :=
  b.generateEvasionMoves.all fun m => fails (b.doMove m)

/-- The verdict on an evasion in `MateIn3Ply`. -/
def failsIn3 (c : ShogiBoard) : Bool :=
  !c.inCheck c.sideToMove && evasionFails (fun c => (env.findMateInOneNonCheck c).isSome) c

/-- The verdict of `MateInOddPly`. -/
def oddVerdict : Nat → Bool → ShogiBoard → Bool
  | 0, _, _ => false
  | 1, inCheck, b => env.mateInOne inCheck b
  | 2, _, _ => false
  | 3, inCheck, b => someCheck (everyEvasion env.failsIn3) inCheck b
  | d + 4, inCheck, b => someCheck (everyEvasion (evasionFails fun c =>
      oddVerdict (d + 2) (c.inCheck c.sideToMove) c)) inCheck b

/-- The answer of `HasMateWithin`. -/
def verdict (depth : Int) (b : ShogiBoard) : Bool :=
  if depth = 1 ∨ depth = 3 ∨ depth = 5 ∨ depth = 7 then
    env.oddVerdict depth.toNat (b.inCheck b.sideToMove) b
  else false

/-! ## The commands of a probe -/

/-- The limits change by calls of `ShouldStop` only. -/
def Polls (env : Env) (l l' : SearchLimits) : Prop :=
  match env.limits with
  | none => l' = l
  | some answers => ∃ k, l' = l.polled answers k

theorem polls_refl (env : Env) (l : SearchLimits) : env.Polls l l := by
  rw [Polls]
  cases env.limits with
  | none => rfl
  | some answers => exact ⟨0, rfl⟩

theorem Polls.trans {env : Env} {l l' l'' : SearchLimits} (h : env.Polls l l')
    (h' : env.Polls l' l'') : env.Polls l l'' := by
  rw [Polls] at h h' ⊢
  cases hl : env.limits with
  | none =>
    rw [hl] at h h'
    exact h'.trans h
  | some answers =>
    rw [hl] at h h'
    obtain ⟨j, rfl⟩ := h
    obtain ⟨k, rfl⟩ := h'
    exact ⟨j + k, SearchLimits.polled_add⟩

/-- The board is what a probe has to put back. -/
def probing : Cancellation ProbeState ShogiBoard where
  core := ProbeState.board
  cancelled s := env.limits.isSome && s.limits.cancelled
  leads s t := env.Polls s.limits t.limits
  refl s := env.polls_refl s.limits
  trans h h' := Polls.trans h h'

variable {env} {α : Type} {b c : ShogiBoard} {m : Move}

theorem does_ask {f : ShogiBoard → α} : env.probing.Does (ask f) b (f b) b := by
  rintro s rfl
  exact ⟨rfl, rfl, rfl, env.polls_refl _⟩

theorem does_doMove {g : Option Bool} : env.probing.Does (doMove m g) b
    (b.doMoveInternal m true g).2 (b.doMoveInternal m true g).1 := by
  rintro s rfl
  exact ⟨rfl, rfl, rfl, env.polls_refl _⟩

theorem does_undoMove {undo : UndoInfo} :
    env.probing.Does (undoMove m undo) b () (b.undoMove m undo) := by
  rintro s rfl
  exact ⟨rfl, rfl, rfl, env.polls_refl _⟩

/-- Taking back a playable move. -/
theorem does_undo (hb : b.Playable) (hm : b.position.Legal m) {g : Option Bool} :
    env.probing.Does (undoMove m (b.doMoveInternal m true g).2) (b.doMoveInternal m true g).1 ()
      b := by
  have hundo := hb.undoMove (u := true) (g := g) (hb.legal_iff.mpr hm)
  exact cast (congrArg _ hundo) (@does_undoMove env _ _ _)

theorem checkpoint_shouldStop : env.probing.Checkpoint env.shouldStop := by
  intro s hs
  simp only [probing] at hs ⊢
  cases h : env.limits with
  | none =>
    simp only [shouldStop, h, Polls, Option.isSome_none, Bool.false_and, and_self]
  | some answers =>
    rw [h, Option.isSome_some, Bool.true_and] at hs
    simp only [shouldStop, h, Polls, Option.isSome_some, Bool.true_and, true_and]
    refine ⟨?_, 1, rfl⟩
    rw [SearchLimits.cancelled_shouldStop, hs, Bool.false_or]

theorem looks_cancelled : env.probing.Looks env.cancelled := fun _ => rfl

/-! ## Mate in one -/

/-- Moves that `DoMove` may be told to be checks. -/
def Checks (b : ShogiBoard) (moves : MoveList) : Prop :=
  ∀ m ∈ moves, b.position.Legal m ∧ (b.doMove m).inCheck (b.doMove m).sideToMove = true

theorem checks_checkingMoves (hb : b.Playable) :
    Checks b (checkingMoves (b.inCheck b.sideToMove) b) := by
  have hchecks : Checks b b.generateCheckingMoves := by
    intro m hm
    obtain ⟨hlegal, hcheck⟩ := hb.mem_checkingMoves.mp hm
    exact ⟨hlegal, (hb.doMove hlegal).inCheck_iff.mpr hcheck⟩
  cases h : b.inCheck b.sideToMove with
  | true => exact hchecks
  | false =>
    intro m hm
    refine hchecks m ?_
    rw [ShogiBoard.generateCheckingMoves_eq_nonCheck h]
    exact hm

/-- The search for a mate among checks, taking each of them back. -/
theorem yields_mateAmong (hb : b.Playable) {moves : MoveList} (hmoves : Checks b moves) :
    env.probing.Yields (mateAmong moves) b
      (moves.find? fun m => !(b.doMove m).hasLegalEvasion) b := by
  induction moves with
  | nil => exact Cancellation.yields_pure
  | cons m rest ih =>
    obtain ⟨hlegal, hcheck⟩ := hmoves m List.mem_cons_self
    have hgives := ShogiBoard.doMove_some_true hcheck
    refine does_doMove.yields (does_ask.yields ((does_undo hb hlegal).yields ?_))
    rw [hgives, List.find?_cons]
    cases (!(b.doMove m).hasLegalEvasion) with
    | true => exact Cancellation.yields_pure
    | false => exact ih fun m hm => hmoves m (List.mem_cons_of_mem _ hm)

theorem yields_findMateInOne (hb : b.Playable) (hcheck : b.inCheck b.sideToMove = true) :
    env.probing.Yields env.findMateInOne b
      (b.generateCheckingMoves.find? fun m => !(b.doMove m).hasLegalEvasion) b := by
  refine does_ask.yields ?_
  have hkings : ((b.kingSq .black).isNone || (b.kingSq .white).isNone) = false := by
    rw [Option.isNone_eq_false_iff.mpr (hb.kings .black), Option.isNone_eq_false_iff.mpr
      (hb.kings .white)]
    rfl
  rw [hkings]
  refine does_ask.yields ?_
  rw [hcheck]
  refine does_ask.yields (yields_mateAmong hb ?_)
  have hmoves := checks_checkingMoves hb
  rwa [hcheck] at hmoves

/-! ## Mate in three -/

/-- The moves of the side to move are legal. -/
def Replies (b : ShogiBoard) (moves : MoveList) : Prop := ∀ m ∈ moves, b.position.Legal m

theorem replies_evasionMoves (hb : b.Playable) (hcheck : b.inCheck b.sideToMove = true) :
    Replies b b.generateEvasionMoves := fun _ hm => (hb.mem_evasionMoves hcheck).mp hm

theorem yields_allEvasionsLose (hb : b.Playable) {moves : MoveList} (hmoves : Replies b moves) :
    env.probing.Yields (env.allEvasionsLose moves) b
      (moves.all fun m => env.failsIn3 (b.doMove m)) b := by
  induction moves with
  | nil => exact Cancellation.yields_pure
  | cons m rest ih =>
    have hlegal := hmoves m List.mem_cons_self
    have ih := ih fun m hm => hmoves m (List.mem_cons_of_mem _ hm)
    have hundo := @does_undo env _ _ hb hlegal none
    refine checkpoint_shouldStop.yields (fun _ => rfl) (does_doMove.yields ?_)
    rw [List.all_cons, failsIn3, ← ShogiBoard.gaveCheck_doMove]
    cases (b.doMoveInternal m true none).2.gaveCheck with
    | true => exact hundo.yields Cancellation.yields_pure
    | false =>
      refine does_ask.yields ?_
      rw [evasionFails, ← ShogiBoard.doMove]
      cases (b.doMove m).repetition with
      | loss | draw => exact hundo.yields Cancellation.yields_pure
      | win => exact hundo.yields ih
      | none =>
        refine does_ask.yields (hundo.yields (checkpoint_shouldStop.yields (fun _ => rfl) ?_))
        cases h : (env.findMateInOneNonCheck (b.doMove m)).isSome with
        | false => exact Cancellation.yields_pure
        | true => exact ih

theorem yields_mateIn3PlyLoop (hb : b.Playable) {moves : MoveList} (hmoves : Checks b moves) :
    env.probing.Yields (env.mateIn3PlyLoop moves) b
      (moves.any fun m => checkWins (everyEvasion env.failsIn3) (b.doMove m)) b := by
  induction moves with
  | nil => exact Cancellation.yields_pure
  | cons m rest ih =>
    obtain ⟨hlegal, hcheck⟩ := hmoves m List.mem_cons_self
    have ih := ih fun m hm => hmoves m (List.mem_cons_of_mem _ hm)
    have hundo := @does_undo env _ _ hb hlegal (some true)
    refine checkpoint_shouldStop.yields (fun _ => rfl) (does_doMove.yields (does_ask.yields ?_))
    rw [List.any_cons, checkWins]
    rw [ShogiBoard.doMove_some_true hcheck] at hundo ⊢
    cases (b.doMove m).repetition with
    | win | draw => exact hundo.yields ih
    | loss => exact hundo.yields Cancellation.yields_pure
    | none =>
      refine does_ask.yields ?_
      cases hnil : (b.doMove m).generateEvasionMoves with
      | nil =>
        simp only [everyEvasion, hnil, List.all_nil]
        exact hundo.yields Cancellation.yields_pure
      | cons e es =>
        have hevasions := replies_evasionMoves (hb.doMove hlegal) hcheck
        rw [hnil] at hevasions
        refine (yields_allEvasionsLose (hb.doMove hlegal) hevasions).sub hundo looks_cancelled
          (fun _ _ => rfl) ?_
        simp only [everyEvasion, hnil]
        cases ((e :: es).all fun m' => env.failsIn3 ((b.doMove m).doMove m')) with
        | true => exact Cancellation.yields_pure
        | false => exact ih

/-! ## The general nodes -/

theorem yields_mateInOddPlyLoop (hb : b.Playable) {even : Probe Bool} {mated : ShogiBoard → Bool}
    (heven : ∀ c : ShogiBoard, c.Playable → c.inCheck c.sideToMove = true →
      env.probing.Yields even c (mated c) c) {moves : MoveList} (hmoves : Checks b moves) :
    env.probing.Yields (env.mateInOddPlyLoop even moves) b
      (moves.any fun m => checkWins mated (b.doMove m)) b := by
  induction moves with
  | nil => exact Cancellation.yields_pure
  | cons m rest ih =>
    obtain ⟨hlegal, hcheck⟩ := hmoves m List.mem_cons_self
    have ih := ih fun m hm => hmoves m (List.mem_cons_of_mem _ hm)
    have hundo := @does_undo env _ _ hb hlegal (some true)
    refine checkpoint_shouldStop.yields (fun _ => rfl) (does_doMove.yields (does_ask.yields ?_))
    rw [List.any_cons, checkWins]
    rw [ShogiBoard.doMove_some_true hcheck] at hundo ⊢
    cases (b.doMove m).repetition with
    | win | draw => exact hundo.yields ih
    | loss => exact hundo.yields Cancellation.yields_pure
    | none =>
      refine (heven _ (hb.doMove hlegal) hcheck).sub hundo looks_cancelled (fun _ _ => rfl) ?_
      cases mated (b.doMove m) with
      | true => exact Cancellation.yields_pure
      | false => exact ih

theorem yields_mateInEvenPlyLoop (hb : b.Playable) {odd : Bool → Probe Bool}
    {mates : Bool → ShogiBoard → Bool}
    (hodd : ∀ c : ShogiBoard, c.Playable → env.probing.Yields (odd (c.inCheck c.sideToMove)) c
      (mates (c.inCheck c.sideToMove) c) c) {moves : MoveList} (hmoves : Replies b moves) :
    env.probing.Yields (env.mateInEvenPlyLoop odd moves) b
      (moves.all fun m =>
        evasionFails (fun c => mates (c.inCheck c.sideToMove) c) (b.doMove m)) b := by
  induction moves with
  | nil => exact Cancellation.yields_pure
  | cons m rest ih =>
    have hlegal := hmoves m List.mem_cons_self
    have ih := ih fun m hm => hmoves m (List.mem_cons_of_mem _ hm)
    have hundo := @does_undo env _ _ hb hlegal none
    refine checkpoint_shouldStop.yields (fun _ => rfl) (does_doMove.yields (does_ask.yields ?_))
    rw [List.all_cons, evasionFails, ShogiBoard.gaveCheck_doMove, ← ShogiBoard.doMove]
    cases (b.doMove m).repetition with
    | win => exact hundo.yields ih
    | loss | draw => exact hundo.yields Cancellation.yields_pure
    | none =>
      refine (hodd _ (hb.doMove hlegal)).sub hundo looks_cancelled (fun _ _ => rfl) ?_
      cases mates ((b.doMove m).inCheck (b.doMove m).sideToMove) (b.doMove m) with
      | false => exact Cancellation.yields_pure
      | true => exact ih

theorem yields_mateInEvenPly (hb : b.Playable) (hcheck : b.inCheck b.sideToMove = true)
    {odd : Bool → Probe Bool} {mates : Bool → ShogiBoard → Bool}
    (hodd : ∀ c : ShogiBoard, c.Playable → env.probing.Yields (odd (c.inCheck c.sideToMove)) c
      (mates (c.inCheck c.sideToMove) c) c) :
    env.probing.Yields (env.mateInEvenPly odd) b
      (everyEvasion (evasionFails fun c => mates (c.inCheck c.sideToMove) c) b) b := by
  refine checkpoint_shouldStop.yields (fun _ => rfl) (does_ask.yields ?_)
  have hevasions := replies_evasionMoves hb hcheck
  rw [everyEvasion]
  revert hevasions
  cases b.generateEvasionMoves with
  | nil => exact fun _ => Cancellation.yields_pure
  | cons e es => exact yields_mateInEvenPlyLoop hb hodd

/-- What a search at an OR node answers, at every odd depth. -/
theorem yields_mateInOddPly (d : Nat) (hb : b.Playable) :
    env.probing.Yields (env.mateInOddPly d (b.inCheck b.sideToMove)) b
      (env.oddVerdict d (b.inCheck b.sideToMove) b) b := by
  induction d using Nat.strong_induction_on generalizing b with
  | _ d ih =>
    match d with
    | 0 | 2 => exact Cancellation.yields_pure
    | 1 =>
      refine checkpoint_shouldStop.yields (fun _ => rfl) ?_
      rw [oddVerdict, mateInOne]
      cases hcheck : b.inCheck b.sideToMove with
      | true =>
        rw [if_pos rfl, ← List.isSome_find?]
        exact (yields_findMateInOne hb hcheck).map Option.isSome
      | false => exact does_ask.yields_self
    | 3 =>
      refine checkpoint_shouldStop.yields (fun _ => rfl) (does_ask.yields ?_)
      exact yields_mateIn3PlyLoop hb (checks_checkingMoves hb)
    | d + 4 =>
      refine checkpoint_shouldStop.yields (fun _ => rfl) (does_ask.yields ?_)
      refine yields_mateInOddPlyLoop hb (fun c hc hcheck => ?_) (checks_checkingMoves hb)
      exact yields_mateInEvenPly hc hcheck fun c hc => ih (d + 2) (by omega) hc

/-- What `HasMateWithin` answers, for every depth. -/
theorem yields_hasMateWithin (depth : Int) (hb : b.Playable) :
    env.probing.Yields (env.hasMateWithin depth) b (env.verdict depth b) b := by
  refine does_ask.yields ?_
  rw [verdict]
  by_cases h1 : depth = 1
  · rw [if_pos h1, if_pos (Or.inl h1), h1]
    exact yields_mateInOddPly 1 hb
  · by_cases h3 : depth = 3
    · rw [if_neg h1, if_pos h3, if_pos (by omega), h3]
      exact yields_mateInOddPly 3 hb
    · by_cases h5 : depth = 5
      · rw [if_neg h1, if_neg h3, if_pos h5, if_pos (by omega), h5]
        exact yields_mateInOddPly 5 hb
      · by_cases h7 : depth = 7
        · rw [if_neg h1, if_neg h3, if_neg h5, if_pos h7, if_pos (by omega), h7]
          exact yields_mateInOddPly 7 hb
        · rw [if_neg h1, if_neg h3, if_neg h5, if_neg h7, if_neg (by omega)]
          exact Cancellation.yields_pure

/-! ## Wins -/

/-- `FindMateInOneNonCheck` finds legal moves that mate. -/
def Sound (env : Env) : Prop :=
  ∀ b : ShogiBoard, b.Playable → b.inCheck b.sideToMove = false → ∀ m,
    env.findMateInOneNonCheck b = some m → b.position.Legal m ∧ (b.doMove m).position.Checkmate

theorem winsWithin_of_mate (hlegal : b.position.Legal m)
    (hmate : (b.doMove m).position.Checkmate) : ShogiBoard.checkingGame.WinsWithin 1 b :=
  .win ⟨m, hlegal, rfl, hmate.1⟩ (Or.inl hmate)

theorem winsWithin_of_nonCheck (hsound : env.Sound) (hb : b.Playable)
    (hcheck : b.inCheck b.sideToMove = false)
    (h : (env.findMateInOneNonCheck b).isSome = true) :
    ShogiBoard.checkingGame.WinsWithin 1 b := by
  obtain ⟨m, hm⟩ := Option.isSome_iff_exists.mp h
  obtain ⟨hlegal, hmate⟩ := hsound b hb hcheck m hm
  exact winsWithin_of_mate hlegal hmate

theorem winsWithin_of_mateInOne (hsound : env.Sound) (hb : b.Playable)
    (h : env.mateInOne (b.inCheck b.sideToMove) b = true) :
    ShogiBoard.checkingGame.WinsWithin 1 b := by
  rw [mateInOne] at h
  cases hcheck : b.inCheck b.sideToMove with
  | true =>
    rw [hcheck, if_pos rfl, List.any_eq_true] at h
    obtain ⟨m, hm, hno⟩ := h
    obtain ⟨hlegal, hgives⟩ := hb.mem_checkingMoves.mp hm
    have hnext := hb.doMove hlegal
    refine winsWithin_of_mate hlegal ((hnext.checkmate_iff (hnext.inCheck_iff.mpr hgives)).mpr ?_)
    exact (Bool.not_eq_true' _).mp hno
  | false =>
    rw [hcheck, if_neg Bool.false_ne_true] at h
    exact winsWithin_of_nonCheck hsound hb hcheck h

/-- What a failing evasion means in the game. -/
theorem of_evasionFails {mates : ShogiBoard → Bool} {W : ShogiBoard → Prop}
    (h : evasionFails mates c = true) (hmates : mates c = true → W c) :
    ShogiBoard.checkingGame.replyLoses c ∨ ShogiBoard.checkingGame.replyOpen c ∧ W c := by
  rw [evasionFails] at h
  cases hrep : c.repetition with
  | win => exact Or.inl hrep
  | none =>
    rw [hrep] at h
    exact Or.inr ⟨hrep, hmates h⟩
  | loss | draw =>
    rw [hrep] at h
    cases h

/-- One check and all evasions. -/
theorem winsWithin_of_someCheck {fails : ShogiBoard → Bool} {n : Nat} (hb : b.Playable)
    (hfails : ∀ u : ShogiBoard, u.Playable → fails u = true →
      ShogiBoard.checkingGame.replyLoses u ∨
        ShogiBoard.checkingGame.replyOpen u ∧ ShogiBoard.checkingGame.WinsWithin n u)
    (h : someCheck (everyEvasion fails) (b.inCheck b.sideToMove) b = true) :
    ShogiBoard.checkingGame.WinsWithin (n + 2) b := by
  rw [someCheck, List.any_eq_true] at h
  obtain ⟨m, hm, hwins⟩ := h
  obtain ⟨hlegal, hcheck⟩ := checks_checkingMoves hb m hm
  have hnext := hb.doMove hlegal
  refine AttackGame.winsWithin_of_refutes ⟨m, hlegal, rfl, hnext.inCheck_iff.mp hcheck⟩ ?_
  rw [checkWins] at hwins
  cases hrep : (b.doMove m).repetition with
  | loss => exact Or.inl (Or.inr hrep)
  | none =>
    rw [hrep] at hwins
    refine Or.inr ⟨hrep, ?_⟩
    rintro u ⟨m', hlegal', rfl⟩
    have hmem := (hnext.mem_evasionMoves hcheck).mpr hlegal'
    exact hfails _ (hnext.doMove hlegal') (List.all_eq_true.mp hwins m' hmem)
  | win | draw =>
    rw [hrep] at hwins
    cases hwins

/-- A positive verdict is a win within its depth. -/
theorem winsWithin_of_oddVerdict (hsound : env.Sound) (d : Nat) (hb : b.Playable)
    (h : env.oddVerdict d (b.inCheck b.sideToMove) b = true) :
    ShogiBoard.checkingGame.WinsWithin d b := by
  induction d using Nat.strong_induction_on generalizing b with
  | _ d ih =>
    match d with
    | 0 | 2 =>
      rw [oddVerdict] at h
      exact absurd h Bool.false_ne_true
    | 1 =>
      rw [oddVerdict] at h
      exact winsWithin_of_mateInOne hsound hb h
    | 3 =>
      rw [oddVerdict] at h
      refine winsWithin_of_someCheck hb (fun u hu hfails => ?_) h
      -- after a countercheck the source asks for nothing
      rw [failsIn3, Bool.and_eq_true, Bool.not_eq_true'] at hfails
      exact of_evasionFails hfails.2 fun hmate => winsWithin_of_nonCheck hsound hu hfails.1 hmate
    | d + 4 =>
      rw [oddVerdict] at h
      refine winsWithin_of_someCheck hb (fun u hu hfails => ?_) h
      exact of_evasionFails hfails fun hmates => ih (d + 2) (by omega) hu hmates

theorem winsWithin_of_verdict (hsound : env.Sound) {depth : Int} (hb : b.Playable)
    (h : env.verdict depth b = true) : ShogiBoard.checkingGame.WinsWithin depth.toNat b := by
  rw [verdict] at h
  split at h
  · exact winsWithin_of_oddVerdict hsound _ hb h
  · cases h

/-! ## The probe -/

/-- The same search without limits. -/
def neverCancelled (env : Env) : Env := { env with limits := none }

theorem oddVerdict_neverCancelled (d : Nat) :
    env.neverCancelled.oddVerdict d = env.oddVerdict d := by
  induction d using Nat.strong_induction_on with
  | _ d ih =>
    funext inCheck b
    match d with
    | 0 | 1 | 2 => rfl
    | 3 => rfl
    | d + 4 => rw [oddVerdict, oddVerdict, ih (d + 2) (by omega)]

theorem verdict_neverCancelled {depth : Int} :
    env.neverCancelled.verdict depth b = env.verdict depth b := by
  rw [verdict, verdict, oddVerdict_neverCancelled]

/-- The limits with which `ProbeMateWithin` starts the search. -/
def started (env : Env) (l : SearchLimits) : SearchLimits :=
  if env.limits.isSome then { l with cancelled := false, clockPollCounter := 0#32 } else l

theorem started_not_cancelled {l : SearchLimits} :
    (env.limits.isSome && (env.started l).cancelled) = false := by
  rw [started]
  cases env.limits.isSome <;> rfl

/-- `ProbeMateWithin` puts the board back and answers the verdict unless the flag is set. -/
theorem probeMateWithin_eq (hb : b.Playable) (depth : Int) (l : SearchLimits) :
    (env.probeMateWithin depth ⟨b, l⟩).2.board = b ∧
      env.Polls (env.started l) (env.probeMateWithin depth ⟨b, l⟩).2.limits ∧
      (env.probeMateWithin depth ⟨b, l⟩).1 =
        if env.limits.isSome && (env.probeMateWithin depth ⟨b, l⟩).2.limits.cancelled then
          .cancelled
        else if env.verdict depth b then .mate else .noMate := by
  obtain ⟨hcore, hvalue, hpolls⟩ := @yields_hasMateWithin env b depth hb ⟨b, env.started l⟩
    rfl started_not_cancelled
  have hprobe : env.probeMateWithin depth ⟨b, l⟩ =
      (env.hasMateWithin depth >>= fun mate => env.cancelled >>= fun c =>
        if c then pure .cancelled else pure (if mate then .mate else .noMate))
        ⟨b, env.started l⟩ := by
    rw [probeMateWithin, started]
    cases env.limits.isSome <;> rfl
  have htail : ∀ (mate : Bool) (s : ProbeState), (env.cancelled >>= fun c =>
      if c then pure .cancelled else pure (if mate then .mate else .noMate) : Probe ProbeResult) s =
        (if env.limits.isSome && s.limits.cancelled then .cancelled
          else if mate then .mate else .noMate, s) := by
    intro mate s
    change (if env.limits.isSome && s.limits.cancelled then
      pure .cancelled else pure (if mate then .mate else .noMate) : Probe ProbeResult) s = _
    split <;> rfl
  have hrun : env.probeMateWithin depth ⟨b, l⟩ =
      (if env.limits.isSome &&
          (env.hasMateWithin depth ⟨b, env.started l⟩).2.limits.cancelled then .cancelled
        else if (env.hasMateWithin depth ⟨b, env.started l⟩).1 then .mate else .noMate,
        (env.hasMateWithin depth ⟨b, env.started l⟩).2) := hprobe.trans (htail _ _)
  rw [hrun]
  refine ⟨hcore, hpolls, ?_⟩
  split
  · rfl
  · rename_i hflag
    rw [hvalue (Bool.not_eq_true _ ▸ hflag)]

/-- A probe that is never cancelled answers the verdict. -/
theorem probeMateWithin_neverCancelled (hb : b.Playable) (depth : Int) (l : SearchLimits) :
    (env.neverCancelled.probeMateWithin depth ⟨b, l⟩).1 =
      if env.verdict depth b then .mate else .noMate := by
  rw [(probeMateWithin_eq hb depth l).2.2, verdict_neverCancelled]
  rfl

/-- A search that answers yes, without limits or through `ProbeMateWithin` under any, has found a
win of the side to move within its depth in the checking game. -/
theorem hasMateWithin_sound (hsound : env.Sound) (hb : b.Playable) (depth : Int) (l : SearchLimits)
    (h : (env.neverCancelled.hasMateWithin depth ⟨b, l⟩).1 = true ∨
      (env.probeMateWithin depth ⟨b, l⟩).1 = .mate) :
    ShogiBoard.checkingGame.WinsWithin depth.toNat b := by
  refine winsWithin_of_verdict hsound hb ?_
  rcases h with h | h
  · obtain ⟨-, hvalue, -⟩ := @yields_hasMateWithin env.neverCancelled b depth hb ⟨b, l⟩ rfl rfl
    rw [← verdict_neverCancelled, ← hvalue rfl]
    exact h
  · rw [(probeMateWithin_eq hb depth l).2.2] at h
    by_contra hno
    rw [if_neg hno] at h
    split at h <;> cases h

/-- The mates among the checks, one after the other. -/
def searchMate (b : ShogiBoard) : Option Move :=
  b.generateCheckingMovesNonCheck.find? fun m => !(b.doMove m).hasLegalEvasion

theorem sound_searchMate {limits : Option Schedule} : Sound ⟨limits, searchMate⟩ := by
  intro b hb hcheck m hm
  have hmem := List.mem_of_find?_eq_some hm
  have hno := List.find?_some hm
  have hmoves := checks_checkingMoves hb
  rw [hcheck] at hmoves
  obtain ⟨hlegal, hgives⟩ := hmoves m hmem
  exact ⟨hlegal, ((hb.doMove hlegal).checkmate_iff hgives).mpr ((Bool.not_eq_true' _).mp hno)⟩

/-- White's king in the corner, Black's rook two diagonal steps away, and a gold in Black's hand. -/
def cornered : ShogiBoard :=
  (ShogiBoard.new.placeAll [(.fromIdx 44, ⟨.black, .king⟩), (.fromIdx 0, ⟨.white, .king⟩),
    (.fromIdx 20, ⟨.black, .rook⟩)]).setHand .black (Hand.empty.add .gold)

theorem playable_cornered : cornered.Playable := by
  have hplaced : (ShogiBoard.new.placeAll [(.fromIdx 44, ⟨.black, .king⟩),
      (.fromIdx 0, ⟨.white, .king⟩), (.fromIdx 20, ⟨.black, .rook⟩)]).Consistent := by
    refine ShogiBoard.consistent_placeAll ShogiBoard.consistent_new
      ⟨by decide, fun _ _ => rfl, by decide, by decide, fun _ _ _ => rfl⟩
  refine ⟨⟨hplaced.toAgree.congr rfl rfl rfl rfl, hplaced.king_board⟩, fun c => ?_, ?_⟩
  · cases c <;> rfl
  · decide +kernel

/-- Black mates the cornered king in three plies. -/
theorem hasMateWithin_sound_cornered : ShogiBoard.checkingGame.WinsWithin 3 cornered :=
  hasMateWithin_sound sound_searchMate playable_cornered 3 ⟨false, 0#32, 0⟩
    (show ((⟨none, searchMate⟩ : Env).neverCancelled.hasMateWithin 3
        ⟨cornered, ⟨false, 0#32, 0⟩⟩).1 = true ∨
      ((⟨none, searchMate⟩ : Env).probeMateWithin 3 ⟨cornered, ⟨false, 0#32, 0⟩⟩).1 = .mate from
      Or.inl (by decide +kernel))

/-- Under any answers of the stop flag and the clock, `ProbeMateWithin` puts the board back, and it
answers `kCancelled` iff one of its calls of `ShouldStop` answered yes, else what it answers when it
is never cancelled. -/
theorem probeMateWithin_cancellation (hb : b.Playable) (depth : Int) (l : SearchLimits) :
    (env.probeMateWithin depth ⟨b, l⟩).2.board = b ∧
      ((env.probeMateWithin depth ⟨b, l⟩).1 = .cancelled ∨
        (env.probeMateWithin depth ⟨b, l⟩).1 =
          (env.neverCancelled.probeMateWithin depth ⟨b, l⟩).1) ∧
      (env.neverCancelled.probeMateWithin depth ⟨b, l⟩).1 ≠ .cancelled ∧
      ∀ answers, env.limits = some answers →
        ∃ k, (env.probeMateWithin depth ⟨b, l⟩).2.limits = (env.started l).polled answers k ∧
          ((env.probeMateWithin depth ⟨b, l⟩).1 = .cancelled ↔
            ∃ j < k, (((env.started l).polled answers j).shouldStop answers).1 = true) := by
  obtain ⟨hboard, hpolls, hanswer⟩ := @probeMateWithin_eq env b hb depth l
  have hno : ∀ v : Bool, (if v then ProbeResult.mate else .noMate) ≠ .cancelled := by decide
  refine ⟨hboard, ?_, ?_, fun answers ha => ?_⟩
  · rw [probeMateWithin_neverCancelled hb, hanswer]
    split
    · exact Or.inl rfl
    · exact Or.inr rfl
  · rw [probeMateWithin_neverCancelled hb]
    exact hno _
  · rw [Polls, ha] at hpolls
    obtain ⟨k, hk⟩ := hpolls
    have hstart : (env.started l).cancelled = false := by
      rw [started, ha]
      rfl
    refine ⟨k, hk, ?_⟩
    rw [hanswer, ha, hk, Option.isSome_some, Bool.true_and, ← SearchLimits.cancelled_polled hstart]
    split
    · rename_i hflag
      exact iff_of_true rfl hflag
    · rename_i hflag
      exact iff_of_false (hno _) hflag

/-- A probe of the cornered king that is stopped at its third look at the stop flag. -/
def stoppedEarly : Env := ⟨some ⟨some fun n => decide (2 ≤ n), none⟩, searchMate⟩

theorem probeMateWithin_cancellation_cornered :
    (stoppedEarly.probeMateWithin 3 ⟨cornered, ⟨false, 0#32, 0⟩⟩).2.board = cornered ∧
      (stoppedEarly.probeMateWithin 3 ⟨cornered, ⟨false, 0#32, 0⟩⟩).1 = .cancelled := by
  obtain ⟨hboard, -, -, hcalls⟩ := @probeMateWithin_cancellation stoppedEarly _
    playable_cornered 3 ⟨false, 0#32, 0⟩
  exact ⟨hboard, by decide +kernel⟩

end Env

end ShallowMate

end Shogi
