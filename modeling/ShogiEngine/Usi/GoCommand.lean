import ShogiEngine.Shogi.Sfen
import ShogiEngine.Usi.TimeManager

/-!
# The go command

`ParseGoParameters` and the time budget of `CmdGo` in `usi/usi_engine.cc`.

## Main definitions

- `parseGoParameters`, `goBudget`: the source's functions
- `lastGiven`: the number behind the last occurrence of a word
- `Clockless`: no move time, no clock and no cap

## Main results

- `timeControl_eq`: the time control in terms of the words
- `goBudget_unlimited_iff`: when `infinite` and `ponder` do what they say
-/

namespace Shogi.GoCommand

open TimeManager Binary32

/-- A word of the command. -/
abbrev Token := List Char

/-- The words that a number follows. -/
inductive Key
  | btime
  | wtime
  | byoyomi
  | binc
  | winc
  | movetime
  | nodes
  deriving DecidableEq, Repr

/-- How a key is written. -/
def Key.word : Key → Token
  | btime => ['b', 't', 'i', 'm', 'e']
  | wtime => ['w', 't', 'i', 'm', 'e']
  | byoyomi => ['b', 'y', 'o', 'y', 'o', 'm', 'i']
  | binc => ['b', 'i', 'n', 'c']
  | winc => ['w', 'i', 'n', 'c']
  | movetime => ['m', 'o', 'v', 'e', 't', 'i', 'm', 'e']
  | nodes => ['n', 'o', 'd', 'e', 's']

/-- The keys in the order of the tests. -/
def Key.all : List Key := [btime, wtime, byoyomi, binc, winc, movetime, nodes]

/-- The key that a word is. -/
def Key.ofToken (t : Token) : Option Key := Key.all.find? fun k => k.word = t

/-- `infinite`. -/
def infiniteWord : Token := ['i', 'n', 'f', 'i', 'n', 'i', 't', 'e']

/-- `ponder`. -/
def ponderWord : Token := ['p', 'o', 'n', 'd', 'e', 'r']

/-- `mate`. -/
def mateWord : Token := ['m', 'a', 't', 'e']

/-- `kMaxMctsNodes`. -/
def kMaxMctsNodes : Int := 1000000000

/-- `GoParameters`. -/
structure GoParameters where
  timeControl : Control
  nodesLimit : Int
  infinite : Bool
  ponder : Bool

/-- The variables of the loop of `ParseGoParameters`; a key has the value zero until it is given. -/
structure Scan where
  value : Key → Int
  nodesLimit : Int
  hasExplicitNodes : Bool
  infinite : Bool
  ponder : Bool

/-- What a key and its number do. -/
def Scan.set (s : Scan) (k : Key) (n : Int) : Scan :=
  if k = .nodes then { s with nodesLimit := n, hasExplicitNodes := true }
  else { s with value := Function.update s.value k n }

/-- What a word does that is no key with a number. -/
def Scan.flag (s : Scan) (t : Token) : Scan :=
  if t = infiniteWord then { s with nodesLimit := kMaxMctsNodes, infinite := true }
  else if t = ponderWord then { s with ponder := true }
  else s

/-- The loop of `ParseGoParameters`, `none` where `std::stoi` throws. -/
def scan : List Token → Scan → Option Scan
  | [], s => some s
  | [t], s => some (s.flag t)
  | t :: v :: rest, s =>
    (Key.ofToken t).elim (scan (v :: rest) (s.flag t)) fun k =>
      (stoi v).bind fun n => scan rest (s.set k n)

/-- `ParseGoParameters`, with the option `max_nodes_`, the side to move and the ply of the board. -/
def parseGoParameters (maxNodes : Int) (side : Color) (ply : Int) (parts : List Token) :
    Option GoParameters :=
  (scan (parts.drop 1) ⟨fun _ => 0, maxNodes, false, false, false⟩).map fun s =>
    { timeControl :=
        { mainTimeMs := if side = .black then s.value .btime else s.value .wtime
          incrementMs := if side = .black then s.value .binc else s.value .winc
          byoyomiMs := s.value .byoyomi
          moveTimeMs := s.value .movetime
          gamePly := ply
          hasMainTime := decide ((0 : Int) < s.value .btime) || decide ((0 : Int) < s.value .wtime)
          hasExplicitNodes := s.hasExplicitNodes
          infinite := false
          ponder := false }
      nodesLimit := s.nodesLimit
      infinite := s.infinite
      ponder := s.ponder }

/-- The budget of `CmdGo`; there is none where the command is for a mate search or throws. -/
def goBudget (maxNodes : Int) (side : Color) (ply : Int) (o : TimeOptions) (parts : List Token) :
    Option Budget :=
  if mateWord ∈ parts then none
  else (parseGoParameters maxNodes side ply parts).bind fun params => compute params.timeControl o

/-! ## What the words say -/

/-- The number behind the last occurrence of a key, `d` if there is none. -/
def lastGiven (k : Key) (d : Int) (l : List Token) : Int :=
  (l.zip l.tail).foldl (fun d p => if p.1 = k.word then (stoi p.2).getD d else d) d

/-- No move time, no clock of either side and no cap. -/
def Clockless (o : TimeOptions) (parts : List Token) : Prop :=
  lastGiven .movetime 0 (parts.drop 1) ≤ 0 ∧ lastGiven .byoyomi 0 (parts.drop 1) ≤ 0 ∧
    lastGiven .btime 0 (parts.drop 1) ≤ 0 ∧ lastGiven .wtime 0 (parts.drop 1) ≤ 0 ∧ o.maxMoveTimeMs ≤ 0

section Words

variable {k k' : Key} {t v : Token} {rest l : List Token} {s s' : Scan} {n d : Int}

theorem word_of_ofToken (h : Key.ofToken t = some k) : k.word = t := by
  rw [Key.ofToken] at h
  simpa using List.find?_some h

theorem word_ne_of_ofToken (h : Key.ofToken t = none) (k : Key) : t ≠ k.word := by
  intro ht
  have hmem : k ∈ Key.all := by cases k <;> decide
  rw [Key.ofToken] at h
  have hk := List.find?_eq_none.mp h k hmem
  rw [decide_eq_true_eq] at hk
  exact hk ht.symm

theorem word_injective (h : k.word = k'.word) : k = k' := by
  revert h
  cases k <;> cases k' <;> decide

/-- A key is no number. -/
theorem ne_word_of_stoi (h : stoi v = some n) (k : Key) : v ≠ k.word := by
  have hnone : stoi k.word = none := by cases k <;> decide
  rintro rfl
  exact Option.some_ne_none n (h.symm.trans hnone)

theorem lastGiven_cons (k : Key) (d : Int) (t v : Token) (rest : List Token) :
    lastGiven k d (t :: v :: rest) =
      lastGiven k (if t = k.word then (stoi v).getD d else d) (v :: rest) := rfl

/-- A word that is no key says nothing about it. -/
theorem lastGiven_skip (h : v ≠ k.word) : lastGiven k d (v :: rest) = lastGiven k d rest := by
  cases rest with
  | nil => rfl
  | cons w rest => rw [lastGiven_cons, if_neg h]

/-- The loop keeps for each key the number behind its last occurrence. -/
theorem scan_value (h : scan l s = some s') (hk : k ≠ .nodes) :
    s'.value k = lastGiven k (s.value k) l := by
  have hflag : ∀ (s : Scan) t, (s.flag t).value = s.value := by
    intro s t
    rw [Scan.flag]
    split_ifs <;> rfl
  induction l, s using scan.induct with
  | case1 s =>
    cases h
    rfl
  | case2 t s =>
    cases h
    rw [hflag]
    rfl
  | case3 t v rest s ihword ihkey =>
    rw [scan] at h
    cases hkey : Key.ofToken t with
    | none =>
      rw [hkey, Option.elim_none] at h
      rw [ihword h, hflag, lastGiven_cons, if_neg (word_ne_of_ofToken hkey k)]
    | some k' =>
      rw [hkey, Option.elim_some] at h
      obtain ⟨n, hn, h⟩ := Option.bind_eq_some_iff.mp h
      have hword := word_of_ofToken hkey
      rw [ihkey k' n h, lastGiven_cons, lastGiven_skip (ne_word_of_stoi hn k), hn, Option.getD_some]
      congr 1
      -- the number belongs to the key if this is the one that is asked for
      by_cases hsame : k = k'
      · subst hsame
        rw [if_pos hword.symm, Scan.set, if_neg hk]
        exact Function.update_self ..
      · have hother : t ≠ k.word := fun ht => hsame (word_injective (ht.symm.trans hword.symm))
        rw [if_neg hother, Scan.set]
        split_ifs
        · rfl
        · exact Function.update_of_ne hsame ..

end Words

/-! ## The time control -/

/-- No move time, no byoyomi, no main time and no cap. -/
def Idle (c : Control) (o : TimeOptions) : Prop :=
  c.moveTimeMs ≤ 0 ∧ c.byoyomiMs ≤ 0 ∧ c.hasMainTime = false ∧ o.maxMoveTimeMs ≤ 0

/-- A side with time on its clock has main time. -/
def MainKnown (c : Control) : Prop := 0 < c.mainTimeMs → c.hasMainTime = true

section Budget

variable {c : Control} {o : TimeOptions} {b legacy : Budget} {parts : List Token} {maxNodes ply response : Int}
  {side : Color} {params : GoParameters}

/-- The time control has the clocks of the command, and neither of its two flags is ever set. -/
theorem timeControl_eq (h : parseGoParameters maxNodes side ply parts = some params) :
    params.timeControl.infinite = false ∧ params.timeControl.ponder = false ∧
      MainKnown params.timeControl ∧ (Idle params.timeControl o ↔ Clockless o parts) := by
  obtain ⟨s, hs, rfl⟩ := Option.map_eq_some_iff.mp h
  have hvalue : ∀ k, k ≠ Key.nodes → s.value k = lastGiven k 0 (parts.drop 1) :=
    fun k hk => scan_value hs hk
  refine ⟨rfl, rfl, fun hmain => ?_, ?_⟩
  · dsimp only at hmain ⊢
    rw [Bool.or_eq_true, decide_eq_true_eq, decide_eq_true_eq]
    split at hmain
    · exact Or.inl hmain
    · exact Or.inr hmain
  · rw [Idle, Clockless]
    dsimp only
    rw [Bool.or_eq_false_iff, decide_eq_false_iff_not, decide_eq_false_iff_not, not_lt, not_lt, and_assoc,
      hvalue .movetime (by decide), hvalue .byoyomi (by decide), hvalue .btime (by decide),
      hvalue .wtime (by decide)]

/-! ## The budget -/

/-- Without a clock only the cap of all moves counts. -/
theorem activeMoveCap_eq (hmain : c.mainTimeMs ≤ 0) : activeMoveCap c o = o.maxMoveTimeMs :=
  if_neg fun h => absurd h.2.1 (by omega)

/-- Without clocks and caps there is no limit. -/
theorem computeLegacy_of_idle (hidle : Idle c o) (hknown : MainKnown c) (h : computeLegacy c o = some b) :
    b.mctsTimeSeconds = 0 ∧ b.hardDeadlineMs = 0 := by
  obtain ⟨hmove, hbyoyomi, hhas, hcap⟩ := hidle
  have hmain : c.mainTimeMs ≤ 0 := by
    by_contra hpos
    exact Bool.noConfusion (hhas.symm.trans (hknown (by omega)))
  obtain ⟨seconds, hseconds, h⟩ := Option.bind_eq_some_iff.mp h
  obtain ⟨deadline, hdeadline, rfl⟩ := Option.map_eq_some_iff.mp h
  rw [legacySeconds, if_neg (by omega), if_neg (by omega), if_neg (by rw [hhas]; decide)] at hseconds
  cases hseconds
  have hcapped : cappedSeconds c (activeMoveCap c o) 0 = 0 := by
    rw [cappedSeconds, if_neg (by omega), if_neg (by rw [activeMoveCap_eq hmain]; omega)]
  rw [legacyDeadline, if_neg (by omega), if_neg (by rw [activeMoveCap_eq hmain]; omega), hcapped,
    if_neg (lt_irrefl _)] at hdeadline
  cases hdeadline
  exact ⟨hcapped, rfl⟩

/-- Without clocks and caps there is nothing to respond to. -/
theorem responseMs_of_idle (hidle : Idle c o) (hknown : MainKnown c) : responseMs c o = some 0 := by
  obtain ⟨hmove, hbyoyomi, hhas, hcap⟩ := hidle
  have hmain : c.mainTimeMs ≤ 0 := by
    by_contra hpos
    exact Bool.noConfusion (hhas.symm.trans (hknown (by omega)))
  have huncapped : uncappedResponseMs c o = some 0 := by
    rw [uncappedResponseMs, if_neg (by omega), if_neg (by omega), if_neg (by rw [hhas]; decide)]
  rw [responseMs, huncapped, Option.bind_some, if_neg (by rw [activeMoveCap_eq hmain]; omega)]

/-- A clock or a cap limits the search already in `ComputeLegacy`. -/
theorem computeLegacy_limited (hbusy : ¬Idle c o) (h : computeLegacy c o = some b) :
    0 < b.mctsTimeSeconds ∨ 0 < b.hardDeadlineMs := by
  obtain ⟨seconds, hseconds, h⟩ := Option.bind_eq_some_iff.mp h
  obtain ⟨deadline, hdeadline, rfl⟩ := Option.map_eq_some_iff.mp h
  show 0 < cappedSeconds c (activeMoveCap c o) seconds ∨ 0 < deadline
  rw [legacyDeadline] at hdeadline
  split at hdeadline
  next hmove =>
    cases hdeadline
    exact Or.inr hmove
  next hmove =>
    split at hdeadline
    next hcap =>
      cases hdeadline
      exact Or.inr hcap
    next hcap =>
      -- what is left are the clocks, and then no cap changes the duration
      rw [cappedSeconds, if_neg hmove, if_neg hcap]
      refine Or.inl ?_
      rw [legacySeconds, if_neg hmove] at hseconds
      split at hseconds
      next hbyoyomi =>
        cases hseconds
        have hms : (1 : ℚ) ≤ c.byoyomiMs := by exact_mod_cast hbyoyomi
        have hms' := half_le_f32 (x := (c.byoyomiMs : ℚ)) (le_trans (by norm_num) hms)
        have hseconds := half_le_f32 (x := f32 c.byoyomiMs / 1000)
          ((by norm_num : (2 : ℚ) ^ (-149 : ℤ) ≤ 1 / 2000).trans (by linarith))
        have hfactor := half_le_f32 (x := 9 / 10) (by norm_num)
        have hproduct : 1 / 4000 * (9 / 20) ≤ f32 (f32 c.byoyomiMs / 1000) * f32 (9 / 10) :=
          mul_le_mul (by linarith) (by linarith) (by norm_num) (by linarith)
        have hlast := half_le_f32 ((by norm_num : (2 : ℚ) ^ (-149 : ℤ) ≤ 1 / 4000 * (9 / 20)).trans hproduct)
        linarith
      next =>
        split at hseconds
        next =>
          cases hseconds
          have htenth := half_le_f32 (x := 1 / 10) (by norm_num)
          exact lt_max_of_lt_right (by linarith)
        next hhas =>
          refine absurd ⟨by omega, by omega, Bool.eq_false_iff.mpr hhas, ?_⟩ hbusy
          rw [activeMoveCap] at hcap
          split at hcap <;> omega

/-- A clock or a cap asks for a response. -/
theorem responseMs_pos (hbusy : ¬Idle c o) (h : responseMs c o = some response) : 1 ≤ response := by
  obtain ⟨ms, hms, h⟩ := Option.bind_eq_some_iff.mp h
  split at h
  next hcap =>
    obtain ⟨cap, -, rfl⟩ := Option.map_eq_some_iff.mp h
    split
    · exact le_min (by omega) (le_max_right _ _)
    · exact le_max_right _ _
  next hcap =>
    cases h
    rw [uncappedResponseMs] at hms
    split at hms
    · obtain ⟨x, -, rfl⟩ := Option.map_eq_some_iff.mp hms
      exact le_max_right _ _
    · split at hms
      · obtain ⟨sum, -, hms⟩ := Option.bind_eq_some_iff.mp hms
        obtain ⟨x, -, rfl⟩ := Option.map_eq_some_iff.mp hms
        exact le_max_right _ _
      · split at hms
        · cases hms
          exact le_rfl
        next hmove hclock hhas =>
          refine absurd ⟨by omega, by omega, Bool.eq_false_iff.mpr hhas, ?_⟩ hbusy
          rw [activeMoveCap] at hcap
          split at hcap <;> omega

/-- The time points behind a response deadline are adaptive. -/
theorem withDeadlines_adaptive {floor : Int} (hpos : 1 ≤ response) :
    (withDeadlines b c o response floor).hasAdaptiveDeadline = true := by
  obtain ⟨htarget, hle⟩ := targetMs_spec c o floor hpos
  have hlatest : targetMs c o response floor ≤ latestMs c o (targetMs c o response floor) response :=
    le_clamp hle
  show (decide (0 < targetMs c o response floor) &&
    decide (0 < latestMs c o (targetMs c o response floor) response)) = true
  rw [Bool.and_eq_true, decide_eq_true_eq, decide_eq_true_eq]
  omega

/-- When there are adaptive time points. -/
theorem adaptive_iff (hinfinite : c.infinite = false) (hponder : c.ponder = false) (hknown : MainKnown c)
    (h : compute c o = some b) : b.hasAdaptiveDeadline = false ↔ o.mode = .off ∨ Idle c o := by
  obtain ⟨legacy, hlegacy, hcases⟩ := compute_cases h
  have hnone := computeLegacy_adaptive hlegacy
  rcases hcases with ⟨hyes, -⟩ | ⟨-, hoff, rfl⟩ |
    ⟨-, hmode, -, response, hresponse, ⟨hzero, rfl⟩ | ⟨hpos, floor, rfl⟩⟩
  · exact Bool.noConfusion (hinfinite.symm.trans hyes)
  · refine iff_of_true hnone (hoff.imp_right fun hyes => ?_)
    exact Bool.noConfusion (hponder.symm.trans hyes)
  · refine iff_of_true hnone (Or.inr ?_)
    by_contra hbusy
    have hpos := responseMs_pos hbusy hresponse
    omega
  · refine iff_of_false (fun hno => ?_) ?_
    · exact Bool.noConfusion (hno.symm.trans (withDeadlines_adaptive hpos))
    · rintro (hoff | hidle)
      · exact hmode hoff
      · have hzero := Option.some_inj.mp (hresponse.symm.trans (responseMs_of_idle hidle hknown))
        omega

/-- When a search has no limit. -/
theorem unlimited_iff (hinfinite : c.infinite = false) (hponder : c.ponder = false) (hknown : MainKnown c)
    (h : compute c o = some b) :
    (b.mctsTimeSeconds = 0 ∧ b.hardDeadlineMs = 0 ∧ b.hasAdaptiveDeadline = false) ↔ Idle c o := by
  have hadaptive := adaptive_iff hinfinite hponder hknown h
  obtain ⟨legacy, hlegacy, hcases⟩ := compute_cases h
  constructor
  · rintro ⟨hmcts, hhard, hno⟩
    rcases hadaptive.mp hno with hoff | hidle
    · rcases hcases with ⟨hyes, -⟩ | ⟨-, -, rfl⟩ | ⟨-, hmode, -⟩
      · exact Bool.noConfusion (hinfinite.symm.trans hyes)
      · by_contra hbusy
        have hmcts : legacy.mctsTimeSeconds = 0 := hmcts
        have hhard : legacy.hardDeadlineMs = 0 := hhard
        rcases computeLegacy_limited hbusy hlegacy with hpos | hpos
        · exact hpos.ne' hmcts
        · exact hpos.ne' hhard
      · exact absurd hoff hmode
    · exact hidle
  · intro hidle
    obtain ⟨hmcts, hhard⟩ := computeLegacy_of_idle hidle hknown hlegacy
    have hno := hadaptive.mpr (Or.inr hidle)
    rcases hcases with ⟨hyes, -⟩ | ⟨-, -, rfl⟩ | ⟨-, -, -, response, hresponse, ⟨-, rfl⟩ | ⟨hpos, -⟩⟩
    · exact Bool.noConfusion (hinfinite.symm.trans hyes)
    · exact ⟨hmcts, hhard, hno⟩
    · exact ⟨hmcts, hhard, hno⟩
    · have hzero := Option.some_inj.mp (hresponse.symm.trans (responseMs_of_idle hidle hknown))
      omega

end Budget

/-- The flags of the command do not reach the time control: `infinite` lifts the limits, and `ponder`
the adaptive ones, exactly where the command and the options ask for none. -/
theorem goBudget_unlimited_iff (maxNodes : Int) (side : Color) (ply : Int) (o : TimeOptions)
    (parts : List Token) (b : Budget) (h : goBudget maxNodes side ply o parts = some b) :
    ((infiniteWord ∈ parts.drop 1 →
        b.mctsTimeSeconds = 0 ∧ b.hardDeadlineMs = 0 ∧ b.hasAdaptiveDeadline = false) ∧
      (ponderWord ∈ parts.drop 1 → b.hasAdaptiveDeadline = false)) ↔
    ((infiniteWord ∈ parts.drop 1 → Clockless o parts) ∧
      (ponderWord ∈ parts.drop 1 → o.mode = .off ∨ Clockless o parts)) := by
  rw [goBudget] at h
  split at h
  · cases h
  · obtain ⟨params, hparams, hbudget⟩ := Option.bind_eq_some_iff.mp h
    obtain ⟨hinfinite, hponder, hknown, hidle⟩ := timeControl_eq (o := o) hparams
    rw [unlimited_iff hinfinite hponder hknown hbudget, adaptive_iff hinfinite hponder hknown hbudget, hidle]

/-- `go infinite` alone. -/
theorem goBudget_unlimited_iff_alone :
    ∃ b, goBudget 800 .black 1 defaultOptions [['g', 'o'], infiniteWord] = some b ∧
      (((infiniteWord ∈ [['g', 'o'], infiniteWord].drop 1 →
          b.mctsTimeSeconds = 0 ∧ b.hardDeadlineMs = 0 ∧ b.hasAdaptiveDeadline = false) ∧
        (ponderWord ∈ [['g', 'o'], infiniteWord].drop 1 → b.hasAdaptiveDeadline = false)) ↔
      ((infiniteWord ∈ [['g', 'o'], infiniteWord].drop 1 →
          Clockless defaultOptions [['g', 'o'], infiniteWord]) ∧
        (ponderWord ∈ [['g', 'o'], infiniteWord].drop 1 →
          defaultOptions.mode = .off ∨ Clockless defaultOptions [['g', 'o'], infiniteWord]))) := by
  have hsome : (goBudget 800 .black 1 defaultOptions [['g', 'o'], infiniteWord]).isSome = true := by
    decide +kernel
  obtain ⟨b, hb⟩ := Option.isSome_iff_exists.mp hsome
  exact ⟨b, hb, goBudget_unlimited_iff 800 .black 1 defaultOptions _ b hb⟩

/-- `btime 60000 wtime 60000`, behind `go` and one more word. -/
def withClocks (t : Token) : List Token :=
  [['g', 'o'], t, Key.btime.word, ['6', '0', '0', '0', '0'], Key.wtime.word, ['6', '0', '0', '0', '0']]

/-- `go infinite` with clocks is limited, and `go ponder` with clocks has adaptive time points. -/
theorem not_unlimited_withClocks :
    (∃ b, goBudget 800 .black 1 defaultOptions (withClocks infiniteWord) = some b ∧
        infiniteWord ∈ withClocks infiniteWord ∧ b.hardDeadlineMs ≠ 0 ∧ b.hasAdaptiveDeadline = true) ∧
      ∃ b, goBudget 800 .black 1 defaultOptions (withClocks ponderWord) = some b ∧
        ponderWord ∈ withClocks ponderWord ∧ b.hasAdaptiveDeadline = true := by
  have hinfinite : (goBudget 800 .black 1 defaultOptions (withClocks infiniteWord)).map
      (fun b => (b.hardDeadlineMs, b.hasAdaptiveDeadline)) = some (59900, true) := by decide +kernel
  have hponder : (goBudget 800 .black 1 defaultOptions (withClocks ponderWord)).map
      (fun b => b.hasAdaptiveDeadline) = some true := by decide +kernel
  obtain ⟨b, hb, hfields⟩ := Option.map_eq_some_iff.mp hinfinite
  obtain ⟨b', hb', hadaptive⟩ := Option.map_eq_some_iff.mp hponder
  rw [Prod.mk.injEq] at hfields
  refine ⟨⟨b, hb, by decide, ?_, hfields.2⟩, b', hb', by decide, hadaptive⟩
  rw [hfields.1]
  decide

end Shogi.GoCommand
