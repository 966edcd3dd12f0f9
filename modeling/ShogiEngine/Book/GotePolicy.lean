import ShogiEngine.Book.GoteGraph

/-!
# The policy of Gote

What the generated book answers, and what becomes of a game in which Gote follows it.

## Main definitions

- `goteNodes`: the positions that get an entry
- `Answers`: the policy answers with a stored move
- `Plays`, `LeavesWithin`: the games in which Gote follows the policy
- `Promise`: what the policy keeps

## Main results

- `selectGoteMove_spec`: the selected move is the nearest to an exit, or the best one
- `load_outputBytes`: what is written can be loaded
- `generate_keeps_promise`: the generated book keeps its promise
-/

namespace Shogi

namespace GoteBook

open GoteExit LittleEndian

/-! ## The selection -/

section Selection

variable {book : MappedYbb} {options : Options} {children distance : Nat → Nat} {n l i : Nat}

/-- The distance of the edge of a move. -/
def moveDistance (book : MappedYbb) (children distance : Nat → Nat) (n l : Nat) : Nat :=
  edgeDistance distance (edgeChild book children n l)

/-- What `best_normal` is after `i` moves. -/
def Best (book : MappedYbb) (n i : Nat) (c : Choice) : Prop :=
  i = 0 ∧ c.bestNormal = none ∨ ∃ l < i, c.bestNormal = some (l, book.record n l) ∧
    ∀ l' < i, book.eval n l' ≤ book.eval n l

/-- What `best_exit` is after `i` moves. -/
def Nearest (book : MappedYbb) (children distance : Nat → Nat) (n i : Nat) (c : Choice) : Prop :=
  (c.bestDistance = kExitDistanceInfinite ∧ c.bestExitEval = intMin ∧
      ∀ l < i, edgeChild book children n l = kExitDisallowed) ∨
    ∃ l < i, edgeChild book children n l ≠ kExitDisallowed ∧ c.bestExit = some (l, book.record n l) ∧
      c.bestDistance = moveDistance book children distance n l ∧
      ∀ l' < i, edgeChild book children n l' ≠ kExitDisallowed →
        moveDistance book children distance n l ≤ moveDistance book children distance n l'

theorem intMin_lt_eval : intMin < book.eval n l :=
  lt_of_lt_of_le (by decide : intMin < -2 ^ 15) (BitVec.le_toInt _)

theorem edgeDistance_le (child : Nat) : edgeDistance distance child ≤ kExitDistanceInfinite := by
  rw [edgeDistance]
  split
  · decide
  · split
    · exact Nat.le_of_lt_succ (Nat.mod_lt _ (by decide))
    · exact le_rfl

/-- What one move does to `best_normal`. -/
theorem Best.withNormal {c : Choice} (h : Best book n i c) :
    Best book n (i + 1) (c.withNormal i (book.record n i)) := by
  refine Or.inr ?_
  rw [Choice.withNormal]
  rcases h with ⟨rfl, hnone⟩ | ⟨l, hl, hsome, hbest⟩
  · rw [if_pos (by rw [hnone]; rfl)]
    refine ⟨0, Nat.one_pos, rfl, fun l' hl' => ?_⟩
    rw [Nat.lt_one_iff.mp hl']
  · by_cases hbetter : book.eval n l < book.eval n i ∨ (book.record n i).eval = (book.record n l).eval ∧
        (book.record n i).move.toNat < (book.record n l).move.toNat
    · have hle : book.eval n l ≤ book.eval n i := by
        rcases hbetter with hlt | ⟨heq, -⟩
        · exact hlt.le
        · exact (congrArg BitVec.toInt heq).ge
      rw [if_pos (by rw [hsome, Option.all_some]; exact decide_eq_true hbetter)]
      refine ⟨i, Nat.lt_succ_self i, rfl, fun l' hl' => ?_⟩
      rcases Nat.lt_succ_iff_lt_or_eq.mp hl' with hlt | rfl
      · exact (hbest l' hlt).trans hle
      · exact le_rfl
    · rw [if_neg (by rw [hsome, Option.all_some, decide_eq_true_eq]; exact hbetter)]
      refine ⟨l, Nat.lt_succ_of_lt hl, hsome, fun l' hl' => ?_⟩
      rcases Nat.lt_succ_iff_lt_or_eq.mp hl' with hlt | rfl
      · exact hbest l' hlt
      · exact not_lt.mp (not_or.mp hbetter).1

/-- What an allowed move does to `best_exit`. -/
theorem Nearest.withExit {c : Choice} (h : Nearest book children distance n i c)
    (hallowed : edgeChild book children n i ≠ kExitDisallowed) :
    Nearest book children distance n (i + 1)
      (c.withExit (moveDistance book children distance n i) i (book.record n i)) := by
  refine Or.inr ?_
  rw [Choice.withExit]
  rcases h with ⟨hfar, hmin, hnone⟩ | ⟨l, hl, hok, hsome, hdist, hnear⟩
  · -- the first allowed move is always taken
    rw [if_pos]
    · refine ⟨i, Nat.lt_succ_self i, hallowed, rfl, rfl, fun l' hl' hok => ?_⟩
      rcases Nat.lt_succ_iff_lt_or_eq.mp hl' with hlt | rfl
      · exact absurd (hnone l' hlt) hok
      · exact le_rfl
    · rw [hfar, hmin]
      exact (edgeDistance_le _).lt_or_eq.imp_right fun heq => ⟨heq, Or.inl intMin_lt_eval⟩
  · have hlast : ∀ d, d ≤ moveDistance book children distance n l →
        d ≤ moveDistance book children distance n i →
        ∀ l' < i + 1, edgeChild book children n l' ≠ kExitDisallowed →
          d ≤ moveDistance book children distance n l' := by
      intro d hold hnew l' hl' hok
      rcases Nat.lt_succ_iff_lt_or_eq.mp hl' with hlt | rfl
      · exact hold.trans (hnear l' hlt hok)
      · exact hnew
    split
    next hbetter =>
      have hle : moveDistance book children distance n i ≤ moveDistance book children distance n l := by
        rw [← hdist]
        exact hbetter.elim le_of_lt fun heq => heq.1.le
      exact ⟨i, Nat.lt_succ_self i, hallowed, rfl, rfl, hlast _ hle le_rfl⟩
    next hworse =>
      have hle : moveDistance book children distance n l ≤ moveDistance book children distance n i := by
        rw [← hdist]
        exact not_lt.mp (not_or.mp hworse).1
      exact ⟨l, Nat.lt_succ_of_lt hl, hok, hsome, hdist, hlast _ le_rfl hle⟩

/-- A move that is not allowed leaves `best_exit` as it is. -/
theorem Nearest.skip {c : Choice} (h : Nearest book children distance n i c)
    (hno : edgeChild book children n i = kExitDisallowed) :
    Nearest book children distance n (i + 1) c := by
  rcases h with ⟨hfar, hmin, hnone⟩ | ⟨l, hl, hok, hsome, hdist, hnear⟩
  · refine Or.inl ⟨hfar, hmin, fun l hl => ?_⟩
    rcases Nat.lt_succ_iff_lt_or_eq.mp hl with hlt | rfl
    · exact hnone l hlt
    · exact hno
  · refine Or.inr ⟨l, Nat.lt_succ_of_lt hl, hok, hsome, hdist, fun l' hl' hok' => ?_⟩
    rcases Nat.lt_succ_iff_lt_or_eq.mp hl' with hlt | rfl
    · exact hnear l' hlt hok'
    · exact absurd hno hok'

/-- Neither update touches the other choice. -/
theorem Nearest.frame {c : Choice} (h : Nearest book children distance n i c) (r : YbbMoveRecord) :
    Nearest book children distance n i (c.withNormal l r) := by
  rw [Choice.withNormal]
  split <;> exact h

theorem Best.frame {c : Choice} (h : Best book n i c) (d : Nat) (r : YbbMoveRecord) :
    Best book n i (c.withExit d l r) := by
  rw [Choice.withExit]
  split <;> exact h

/-- One pass of the loop. -/
theorem considerGoteMove_spec (hmap : Mapped book) (hwf : book.WellFormed) (hn : n < book.recordCount)
    (hshape : ∀ l < book.count n, plausibleMove (book.record n l).move = true)
    (hi : i < book.count n) {c : Choice} (hbest : Best book n i c)
    (hnear : Nearest book children distance n i c) :
    ∃ c', considerGoteMove book children distance n c i = .ok c' ∧ Best book n (i + 1) c' ∧
      Nearest book children distance n (i + 1) c' := by
  have hok : ¬ plausibleMove (book.record n i).move = false := by
    rw [hshape i hi]
    exact Bool.noConfusion
  rw [considerGoteMove, moveAt_eq hmap hwf hn hi]
  refine ⟨_, rfl, ?_⟩
  dsimp only
  rw [if_neg hok]
  by_cases hno : edgeChild book children n i = kExitDisallowed
  · simp only [if_pos hno]
    exact ⟨hbest.withNormal, (hnear.frame _).skip hno⟩
  · simp only [if_neg hno]
    exact ⟨hbest.withNormal.frame _ _, (hnear.frame _).withExit hno⟩

/-- The selected move is the nearest to an exit where the distance is finite, and the best one
elsewhere. -/
theorem selectGoteMove_spec (children : Nat → Nat) (hmap : Mapped book) (hwf : book.WellFormed)
    (hn : n < book.recordCount)
    (hshape : ∀ l < book.count n, plausibleMove (book.record n l).move = true)
    (hgote : isGote (book.key n) = true) (hpos : 0 < book.count n)
    (hallowed : distance n ≠ kExitDistanceInfinite →
      ∃ l < book.count n, edgeChild book children n l ≠ kExitDisallowed) :
    ∃ l < book.count n, selectGoteMove book children distance n = .ok (some l) ∧
      (distance n ≠ kExitDistanceInfinite → edgeChild book children n l ≠ kExitDisallowed ∧
        ∀ l' < book.count n, edgeChild book children n l' ≠ kExitDisallowed →
          moveDistance book children distance n l ≤ moveDistance book children distance n l') ∧
      (distance n = kExitDistanceInfinite → ∀ l' < book.count n, book.eval n l' ≤ book.eval n l) := by
  obtain ⟨c, hloop, hbest, hnear⟩ := foldlM_range (n := book.count n)
    (I := fun i c => Best book n i c ∧ Nearest book children distance n i c)
    (s := ⟨none, none, kExitDistanceInfinite, intMin⟩) (f := considerGoteMove book children distance n)
    ⟨Or.inl ⟨rfl, rfl⟩, Or.inl ⟨rfl, rfl, fun _ hl => absurd hl (Nat.not_lt_zero _)⟩⟩
    fun i hi c h => considerGoteMove_spec hmap hwf hn hshape hi h.1 h.2
  have hrun : selectGoteMove book children distance n =
      .ok (if distance n ≠ kExitDistanceInfinite ∧ c.bestExit.isSome then c.bestExit.map Prod.fst
        else c.bestNormal.map Prod.fst) := by
    have hcount : ¬ (isGote (book.entryAt n).packedSfen = false ∨ (book.entryAt n).moveCount = 0#16) := by
      rintro (hno | hzero)
      · exact Bool.noConfusion (hgote.symm.trans hno)
      · exact absurd (congrArg BitVec.toNat hzero) hpos.ne'
    rw [selectGoteMove, entry_eq hn]
    show (if _ then _ else _) = _
    rw [if_neg hcount]
    show Except.map _ ((List.range (book.count n)).foldlM _ _) = _
    rw [hloop]
    rfl
  obtain ⟨l, hl, hnormal, hmax⟩ := hbest.resolve_left fun h => hpos.ne' h.1
  by_cases hfinite : distance n = kExitDistanceInfinite
  · refine ⟨l, hl, ?_, fun h => absurd hfinite h, fun _ => hmax⟩
    rw [hrun, if_neg fun h => h.1 hfinite, hnormal]
    rfl
  · obtain ⟨l₀, hl₀, hok₀⟩ := hallowed hfinite
    obtain ⟨l', hl', hok, hexit, -, hleast⟩ := hnear.resolve_left fun h => hok₀ (h.2.2 l₀ hl₀)
    refine ⟨l', hl', ?_, fun _ => ⟨hok, hleast⟩, fun h => absurd h hfinite⟩
    rw [hrun, if_pos ⟨hfinite, by rw [hexit]; rfl⟩, hexit]
    rfl

/-- A move that is selected: at a finite distance it is within the margin, and it leaves the book or
comes nearer to an exit; elsewhere it is the best one. -/
structure Good (options : Options) (book : MappedYbb) (distance : Nat → Nat) (n l : Nat) : Prop where
  stored : l < book.count n
  margin : distance n ≠ kExitDistanceInfinite →
    ∀ l' < book.count n, book.eval n l' - options.evalMargin ≤ book.eval n l
  nearer : distance n ≠ kExitDistanceInfinite → ∀ c, book.Leads n l c →
    distance c ≠ kExitDistanceInfinite ∧ distance c < distance n
  best : distance n = kExitDistanceInfinite → ∀ l' < book.count n, book.eval n l' ≤ book.eval n l

/-- At a finite distance a Gote position has a move to an exit or to a nearer position. -/
theorem exists_nearer {s : Solved} (h : Outcome options book s)
    (hgote : isGote (book.key n) = true) (hfinite : s.solution.distance n ≠ kExitDistanceInfinite) :
    ∃ l < book.count n, edgeChild book s.children n l ≠ kExitDisallowed ∧
      moveDistance book s.children s.solution.distance n l ≤ s.solution.distance n := by
  rcases h.guides.gote n hgote hfinite with hexit | ⟨c, hedge, hc, heq⟩
  · obtain ⟨l, hl, hchild⟩ := mem_children.mp (Graph.mem_edges.mp hexit).2
    refine ⟨l, hl, by rw [hchild]; exact Graph.kExitLeaf_ne, ?_⟩
    rw [moveDistance, hchild, edgeDistance, if_pos rfl]
    exact h.guides.pos n hfinite
  · obtain ⟨hedge, hlt⟩ := Graph.mem_internal.mp hedge
    obtain ⟨l, hl, hchild⟩ := mem_children.mp (Graph.mem_edges.mp hedge).2
    have hsmall := h.guides.small n hfinite
    refine ⟨l, hl, by rw [hchild]; exact hlt.ne, ?_⟩
    rw [moveDistance, hchild, edgeDistance, if_neg (hlt.trans kExitDisallowed_lt_kExitLeaf).ne, if_pos hc,
      heq]
    exact Nat.mod_le _ _

/-- The move that is selected is a good one. -/
theorem selectGoteMove_good {s : Solved} (hmap : Mapped book) (hwf : book.WellFormed)
    (h : Outcome options book s) (hn : n < book.recordCount)
    (hshape : ∀ l < book.count n, plausibleMove (book.record n l).move = true)
    (hgote : isGote (book.key n) = true) (hpos : 0 < book.count n) :
    ∃ l, selectGoteMove book s.children s.solution.distance n = .ok (some l) ∧
      Good options book s.solution.distance n l := by
  obtain ⟨l, hl, hrun, hfinite, hbest⟩ := selectGoteMove_spec s.children hmap hwf hn hshape hgote
    hpos fun hfin => (exists_nearer h hgote hfin).imp fun l h => ⟨h.1, h.2.1⟩
  refine ⟨l, hrun, hl, fun hfin => ?_, fun hfin c hleads => ?_, hbest⟩
  · rcases h.resolved n hn l hl with ⟨hno, -⟩ | ⟨hmargin, -⟩
    · exact absurd hno (hfinite hfin).1
    · exact hmargin hgote
  · obtain ⟨hok, hleast⟩ := hfinite hfin
    obtain ⟨l₀, hl₀, hok₀, hle₀⟩ := exists_nearer h hgote hfin
    have hle := (hleast l₀ hl₀ hok₀).trans hle₀
    have hsmall := h.guides.small n hfin
    rcases h.resolved n hn l hl with ⟨hno, -⟩ | ⟨-, ⟨-, hnowhere⟩ | hleads'⟩
    · exact absurd hno hok
    · exact absurd hleads (hnowhere c)
    · have hchild : edgeChild book s.children n l = c :=
        key_inj hwf hleads'.1 hleads.1 (Option.some.inj (hleads'.2.symm.trans hleads.2))
      have hleaf : ¬ c = kExitLeaf := ((hleads.1.trans h.nodes).trans kExitDisallowed_lt_kExitLeaf).ne
      rw [moveDistance, hchild, edgeDistance, if_neg hleaf] at hle
      by_cases hc : s.solution.distance c = kExitDistanceInfinite
      · rw [if_neg (not_not.mpr hc)] at hle
        omega
      · have hbound : s.solution.distance c + 1 < 2 ^ 32 := (h.guides.small c hc).trans (by decide)
        rw [if_pos hc, Nat.mod_eq_of_lt hbound] at hle
        exact ⟨hc, hle⟩

end Selection

/-! ## The file -/

section Output

variable {rs : List (YbbIndexEntry × YbbMoveRecord)} {i : Nat}

/-- The index that is written. -/
def outputIndex (rs : List (YbbIndexEntry × YbbMoveRecord)) : List (BitVec 8) :=
  rs.zipIdx.flatMap fun r => encodeYbbIndexEntry (outputEntry r.1.1 r.2)

/-- The moves that are written. -/
def outputMoves (rs : List (YbbIndexEntry × YbbMoveRecord)) : List (BitVec 8) :=
  rs.flatMap fun r => encodeYbbMoveRecord r.2

/-- The book that is read from what was written. -/
def loaded (rs : List (YbbIndexEntry × YbbMoveRecord)) : OpeningBook :=
  ⟨outputBytes rs, rs.length, kYbbFlagMoveDepth, kYbbHeaderSize + rs.length * kYbbIndexRecordSize⟩

theorem moveRecordSize_loaded : ybbMoveRecordSize (loaded rs).flags = 6 :=
  show ybbMoveRecordSize kYbbFlagMoveDepth = 6 from rfl

theorem length_outputIndex : (outputIndex rs).length = rs.length * kYbbIndexRecordSize := by
  rw [outputIndex, length_flatMap fun r : (YbbIndexEntry × YbbMoveRecord) × Nat =>
    length_encodeYbbIndexEntry (outputEntry r.1.1 r.2), List.length_zipIdx, Nat.mul_comm]

theorem length_outputMoves : (outputMoves rs).length = 6 * rs.length :=
  length_flatMap (fun r : YbbIndexEntry × YbbMoveRecord => length_encodeYbbMoveRecord r.2) rs

theorem length_outputBytes (rs : List (YbbIndexEntry × YbbMoveRecord)) : (outputBytes rs).length =
    kYbbHeaderSize + rs.length * kYbbIndexRecordSize + 6 * rs.length := by
  rw [outputBytes, List.length_append, List.length_append, length_ybbHeader, Nat.add_assoc]
  exact congrArg (kYbbHeaderSize + ·) (congrArg₂ (· + ·) length_outputIndex length_outputMoves)

/-- The entries are read back. -/
theorem readIndexEntry_loaded (hi : i < rs.length) :
    (loaded rs).readIndexEntry i = some (outputEntry (rs.get ⟨i, hi⟩).1 i) := by
  have hlength : ¬ (loaded rs).contents.length < kYbbHeaderSize + i * kYbbIndexRecordSize +
      kYbbIndexRecordSize := by
    have htotal : (loaded rs).contents.length = _ := length_outputBytes rs
    have hle : (i + 1) * kYbbIndexRecordSize ≤ rs.length * kYbbIndexRecordSize :=
      Nat.mul_le_mul_right _ hi
    rw [Nat.succ_mul] at hle
    omega
  have hdrop : (loaded rs).contents.drop (kYbbHeaderSize + i * kYbbIndexRecordSize) =
      (outputIndex rs ++ outputMoves rs).drop (kYbbIndexRecordSize * i) := by
    rw [← List.drop_drop, Nat.mul_comm]
    exact congrArg (List.drop _) (List.drop_left' (length_ybbHeader _ _))
  have hzip : i < rs.zipIdx.length := by rwa [List.length_zipIdx]
  have hget : rs.zipIdx.get ⟨i, hzip⟩ = (rs.get ⟨i, hi⟩, i) := by
    rw [List.get_eq_getElem, List.getElem_zipIdx, Nat.zero_add]
    rfl
  have hcount : ¬ (loaded rs).recordCount ≤ i := not_le.mpr hi
  rw [OpeningBook.readIndexEntry, if_neg hcount]
  dsimp only
  rw [if_neg hlength, hdrop, outputIndex, drop_flatMap (fun r : (YbbIndexEntry × YbbMoveRecord) × Nat =>
    length_encodeYbbIndexEntry (outputEntry r.1.1 r.2)) hzip, decode_encodeYbbIndexEntry, hget]

/-- The moves are read back. -/
theorem readMove_loaded (hsmall : rs.length ≤ 2 ^ 32) (hi : i < rs.length) :
    (loaded rs).readMove (outputEntry (rs.get ⟨i, hi⟩).1 i) 0 = some (rs.get ⟨i, hi⟩).2 := by
  have hsize : ybbMoveRecordSize kYbbFlagMoveDepth = 6 := rfl
  have hoffset : ((outputEntry (rs.get ⟨i, hi⟩).1 i).movesOffset.toNat +
      0 * ybbMoveRecordSize (loaded rs).flags) % 2 ^ 64 = 6 * i := by
    rw [Nat.zero_mul, Nat.add_zero, outputEntry, BitVec.toNat_ofNat, hsize]
    omega
  have hlength : (loaded rs).contents.length - (loaded rs).movesBase = 6 * rs.length := by
    have htotal : (loaded rs).contents.length = (loaded rs).movesBase + 6 * rs.length :=
      length_outputBytes rs
    omega
  have hdrop : (loaded rs).contents.drop ((loaded rs).movesBase + 6 * i) =
      (outputMoves rs).drop (6 * i) := by
    have hbase : (ybbHeader (BitVec.ofNat 64 rs.length) kYbbFlagMoveDepth ++ outputIndex rs).length =
        (loaded rs).movesBase := by
      rw [List.length_append, length_ybbHeader, length_outputIndex]
      rfl
    have hbytes : (loaded rs).contents = (ybbHeader (BitVec.ofNat 64 rs.length) kYbbFlagMoveDepth ++
        outputIndex rs) ++ outputMoves rs := (List.append_assoc _ _ _).symm
    rw [← List.drop_drop, hbytes, List.drop_left' hbase]
  have hmoves := drop_flatMap (fun r : YbbIndexEntry × YbbMoveRecord => length_encodeYbbMoveRecord r.2) hi []
  rw [List.append_nil] at hmoves
  have hone : ¬ (outputEntry (rs.get ⟨i, hi⟩).1 i).moveCount.toNat ≤ 0 :=
    show ¬ (1#16).toNat ≤ 0 by decide
  rw [OpeningBook.readMove, if_neg hone]
  dsimp only
  rw [hoffset, hlength, if_neg (by rw [moveRecordSize_loaded]; omega), hdrop, outputMoves, hmoves]
  exact congrArg some (decode_encodeYbbMoveRecord _ _)

/-- The file that is written is a valid one. -/
theorem validateFile_loaded (hsmall : rs.length ≤ 2 ^ 32) : (loaded rs).validateFile = .ok () := by
  have htotal : (loaded rs).contents.length = (loaded rs).movesBase + 6 * rs.length :=
    length_outputBytes rs
  rw [OpeningBook.validateFile]
  by_cases hzero : rs.length = 0
  · rw [if_pos (show (loaded rs).recordCount = 0 from hzero),
      if_neg (by rw [htotal, hzero]; exact not_not.mpr rfl)]
  · have hfirst : 0 < rs.length := Nat.pos_of_ne_zero hzero
    have hlast : rs.length - 1 < rs.length := Nat.sub_one_lt hzero
    have hend : (loaded rs).recordCount - 1 = rs.length - 1 := rfl
    have hoffset : (outputEntry (rs.get ⟨rs.length - 1, hlast⟩).1 (rs.length - 1)).movesOffset.toNat =
        6 * (rs.length - 1) := by
      rw [outputEntry, BitVec.toNat_ofNat, show ybbMoveRecordSize kYbbFlagMoveDepth = 6 from rfl]
      omega
    have hcount : (outputEntry (rs.get ⟨rs.length - 1, hlast⟩).1 (rs.length - 1)).moveCount.toNat = 1 :=
      rfl
    have hzeroth : (outputEntry (rs.get ⟨0, hfirst⟩).1 0).movesOffset = 0#64 := rfl
    rw [if_neg (show ¬ (loaded rs).recordCount = 0 from hzero), hend, readIndexEntry_loaded hfirst,
      readIndexEntry_loaded hlast, Option.bind_some, Option.map_some, Option.elim_some]
    refine if_neg (not_or.mpr ⟨not_not.mpr hzeroth, ?_⟩)
    dsimp only
    rw [hoffset, hcount, moveRecordSize_loaded, htotal]
    omega

/-- What is written can be loaded. -/
theorem load_outputBytes (path : String) (hsmall : rs.length ≤ 2 ^ 32) :
    OpeningBook.load path (some (outputBytes rs)) = .ok (loaded rs) := by
  have htotal := length_outputBytes rs
  have hheader : kYbbHeaderSize = 32 := rfl
  have hindex : kYbbIndexRecordSize = 44 := rfl
  have hlimit : ¬ fileSizeLimit ≤ (outputBytes rs).length := by
    rw [show fileSizeLimit = 2 ^ 63 from rfl, htotal, hheader, hindex]
    omega
  have hmagic : ¬ ((outputBytes rs).length < kYbbHeaderSize ∨ (outputBytes rs).take 16 ≠ kYbbMagic) := by
    rw [not_or, not_not]
    refine ⟨by omega, ?_⟩
    rw [outputBytes, ybbHeader, List.append_assoc, List.take_left' (show kYbbMagic.length = 16 from rfl)]
  have hcount : (readLe64 ((outputBytes rs).drop 16)).toNat = rs.length := by
    have hread : readLe64 ((outputBytes rs).drop 16) = BitVec.ofNat 64 rs.length := by
      rw [outputBytes, ybbHeader, List.append_assoc, List.append_assoc,
        List.drop_left' (show kYbbMagic.length = 16 from rfl), readLe64_append]
    rw [hread, BitVec.toNat_ofNat]
    omega
  have hflags : readLe64 ((outputBytes rs).drop 24) = kYbbFlagMoveDepth := by
    have hplace : (kYbbMagic ++ leBytes 8 (BitVec.ofNat 64 rs.length)).length = 24 := by
      rw [List.length_append, length_leBytes]
      rfl
    rw [outputBytes, ybbHeader, ← List.append_assoc kYbbMagic, List.append_assoc,
      List.drop_left' hplace, readLe64_append]
  have hbase : ybbIndexSize rs.length = some (kYbbHeaderSize + rs.length * kYbbIndexRecordSize) :=
    if_neg (by rw [hheader, hindex]; omega)
  have hknown : ¬ kYbbFlagMoveDepth &&& ~~~kYbbKnownFlags ≠ 0#64 := by decide
  rw [OpeningBook.load, Option.elim_some, if_neg hlimit, if_neg hmagic, hcount, hflags]
  dsimp only
  rw [if_neg hknown, hbase, Option.elim_some, if_neg (by omega)]
  exact congrArg (Except.map fun _ => loaded rs) (validateFile_loaded hsmall)

end Output


/-! ## The promise -/

/-- The Gote positions with a plausible move. -/
def MappedYbb.goteNodes (book : MappedYbb) : List Nat :=
  (List.range book.recordCount).filter fun n =>
    isGote (book.key n) && (List.range (book.count n)).any fun l => plausibleMove (book.record n l).move

/-- The policy answers position `n` with its stored move `l`, which is legal. -/
def Answers (book : MappedYbb) (policy : OpeningBook) (n l : Nat) : Prop :=
  l < book.count n ∧ ∃ b m, book.board n = some b ∧ m ∈ b.generateLegalMoves ∧
    m.raw = (book.record n l).move ∧
    policy.probe b = some ⟨m, book.eval n l, (book.record n l).depth.toNat⟩

/-- A ply of a game in which Gote follows the policy; Sente plays any stored move. -/
def Plays (book : MappedYbb) (policy : OpeningBook) (n l : Nat) : Prop :=
  l < book.count n ∧ (isGote (book.key n) = true → Answers book policy n l)

/-- There is a ply to play, and with each one the game has left the book or does so within the plies
that remain. -/
def LeavesWithin (book : MappedYbb) (policy : OpeningBook) : Nat → Nat → Prop
  | 0, _ => False
  | k + 1, n => (∃ l, Plays book policy n l) ∧
    ∀ l c, Plays book policy n l → book.Leads n l c → LeavesWithin book policy k c

/-- What the policy keeps. -/
structure Promise (options : Options) (book : MappedYbb) (distance : Nat → Nat) (policy : OpeningBook) :
    Prop where
  side : ∀ n b, book.board n = some b → (isGote (book.key n) = true ↔ b.sideToMove = .white)
  entries : ∀ p, (∃ i e, policy.readIndexEntry i = some e ∧ e.packedSfen = p) ↔
    ∃ n ∈ book.goteNodes, book.key n = p
  single : ∀ i e, policy.readIndexEntry i = some e → e.moveCount = 1#16
  sorted : ∀ i j e e', i < j → policy.readIndexEntry i = some e → policy.readIndexEntry j = some e' →
    comparePackedSfen e.packedSfen e'.packedSfen = .lt
  answers : ∀ n ∈ book.goteNodes, ∃ l, Answers book policy n l
  margin : ∀ n ∈ book.goteNodes, ∀ l, Answers book policy n l → distance n ≠ kExitDistanceInfinite →
    ∀ l' < book.count n, book.eval n l' - options.evalMargin ≤ book.eval n l
  best : ∀ n ∈ book.goteNodes, ∀ l, Answers book policy n l → distance n = kExitDistanceInfinite →
    ∀ l' < book.count n, book.eval n l' ≤ book.eval n l
  nearer : ∀ n < book.recordCount, distance n ≠ kExitDistanceInfinite → ∀ l c, Plays book policy n l →
    book.Leads n l c → distance c ≠ kExitDistanceInfinite ∧ distance c < distance n
  leaves : ∀ n < book.recordCount, distance n ≠ kExitDistanceInfinite →
    LeavesWithin book policy (distance n) n

section Policy

variable {book : MappedYbb} {options : Options} {pick distance children : Nat → Nat} {n l i : Nat}
  {policy : OpeningBook}

theorem mem_goteNodes : n ∈ book.goteNodes ↔ n < book.recordCount ∧ isGote (book.key n) = true ∧
    ∃ l < book.count n, plausibleMove (book.record n l).move = true := by
  rw [MappedYbb.goteNodes, List.mem_filter, List.mem_range, Bool.and_eq_true, List.any_eq_true]
  simp only [List.mem_range]

theorem lsb_eq : ∀ x : BitVec 8, (x &&& 1#8 != 0#8) = x.getLsbD 0 := by decide +kernel

/-- The bit of the key is the side to move on the board. -/
theorem isGote_iff {b : ShogiBoard} (h : book.board n = some b) :
    isGote (book.key n) = true ↔ b.sideToMove = .white := by
  obtain ⟨L, ⟨-, hholds, -⟩, rfl⟩ := ShogiBoard.setFromPackedSfen_eq_some.mp h
  have hbit : isGote (book.key n) = (book.key n).bit 0 := lsb_eq ((book.key n).data 0)
  have hturn := (PackedSfen.holds_word.mp hholds).1
  rw [PackedSfen.bitsOf_colorBit, BitTape.holds_cons] at hturn
  rw [ShogiBoard.sideToMove_setUp, hbit, hturn.1, PackedSfen.colorFlag, beq_iff_eq]

/-- No move is selected where none is stored. -/
theorem selectGoteMove_zero (hn : n < book.recordCount) (hzero : book.count n = 0) :
    selectGoteMove book children distance n = .ok none := by
  have hcount : (book.entryAt n).moveCount = 0#16 := BitVec.eq_of_toNat_eq hzero
  rw [selectGoteMove, entry_eq hn]
  exact if_pos (Or.inr hcount)

/-- A loop whose calls all succeed. -/
theorem mapM_ok {α β : Type} {f : α → Except Failure β} {g : α → β} {as : List α}
    (h : ∀ a ∈ as, f a = .ok (g a)) : as.mapM f = .ok (as.map g) := by
  induction as with
  | nil => rfl
  | cons a as ih =>
    rw [List.mapM_cons, h a List.mem_cons_self, ih fun x hx => h x (List.mem_cons_of_mem _ hx)]
    rfl

/-- The records that are written. -/
def goteRecords (book : MappedYbb) (pick : Nat → Nat) : List (YbbIndexEntry × YbbMoveRecord) :=
  book.goteNodes.map fun n => (book.entryAt n, book.record n (pick n))

/-- `WriteOutput` writes the selected moves of the Gote positions. -/
theorem writeOutput_eq (hmap : Mapped book) (hwf : book.WellFormed)
    (hshape : ∀ n < book.recordCount, ∀ l < book.count n, plausibleMove (book.record n l).move = true)
    (hpick : ∀ n ∈ book.goteNodes, pick n < book.count n ∧
      selectGoteMove book children distance n = .ok (some (pick n))) :
    writeOutput book book.recordCount children distance = .ok (outputBytes (goteRecords book pick)) := by
  have hselected : selectedMoves book book.recordCount children distance =
      .ok (book.goteNodes.map fun n => (n, pick n)) := by
    obtain ⟨selected, hloop, rfl⟩ := foldlM_range (n := book.recordCount) (s := ([] : List (Nat × Nat)))
      (f := fun selected node => (book.entry node).bind fun entry =>
        if isGote entry.packedSfen = false then .ok selected
        else (selectGoteMove book children distance node).map fun move =>
          move.elim selected fun localMove => selected ++ [(node, localMove)])
      (I := fun i selected => selected = ((List.range i).filter fun n => isGote (book.key n) &&
        (List.range (book.count n)).any fun l => plausibleMove (book.record n l).move).map
          fun n => (n, pick n)) rfl fun i hi selected hs => by
        refine ⟨_, ?_, rfl⟩
        rw [entry_eq hi, List.range_succ, List.filter_append, List.map_append, ← hs]
        show (if isGote (book.key i) = false then _ else _) = _
        cases hgote : isGote (book.key i) with
        | false =>
          rw [if_pos rfl, List.filter_singleton, hgote]
          exact congrArg Except.ok (List.append_nil selected).symm
        | true =>
          rw [if_neg Bool.noConfusion, List.filter_singleton, hgote, Bool.true_and]
          rcases Nat.eq_zero_or_pos (book.count i) with hzero | hpos
          · rw [selectGoteMove_zero hi hzero, hzero]
            exact congrArg Except.ok (List.append_nil selected).symm
          · have hany : ((List.range (book.count i)).any fun l => plausibleMove (book.record i l).move) = true :=
              List.any_eq_true.mpr ⟨0, List.mem_range.mpr hpos, hshape i hi 0 hpos⟩
            have hmem : i ∈ book.goteNodes := mem_goteNodes.mpr ⟨hi, hgote, 0, hpos, hshape i hi 0 hpos⟩
            rw [(hpick i hmem).2, hany]
            rfl
    exact hloop
  rw [writeOutput, hselected]
  show Except.map _ (outputRecords book _) = _
  rw [outputRecords, mapM_ok (g := fun move => (book.entryAt move.1, book.record move.1 move.2))]
  · show Except.ok (outputBytes ((book.goteNodes.map fun n => (n, pick n)).map _)) = _
    rw [List.map_map]
    rfl
  · intro move hmove
    obtain ⟨n, hn, rfl⟩ := List.mem_map.mp hmove
    obtain ⟨hlt, -⟩ := mem_goteNodes.mp hn
    rw [entry_eq hlt]
    show Except.map _ (book.moveAt (book.entryAt n) (pick n)) = _
    rw [moveAt_eq hmap hwf hlt (hpick n hn).1]
    rfl

/-! ### What the policy answers -/

theorem length_goteRecords : (goteRecords book pick).length = book.goteNodes.length := List.length_map _

theorem length_goteNodes_le : book.goteNodes.length ≤ book.recordCount := by
  refine (List.length_filter_le _ _).trans ?_
  rw [List.length_range]

/-- The position of entry `i`. -/
def goteNode (book : MappedYbb) (i : Nat) : Nat := book.goteNodes.getD i 0

theorem goteNode_eq (hi : i < book.goteNodes.length) :
    goteNode book i = book.goteNodes.get ⟨i, hi⟩ := by
  rw [goteNode, List.getD_eq_getElem _ _ hi]
  rfl

theorem goteNode_mem (hi : i < book.goteNodes.length) : goteNode book i ∈ book.goteNodes := by
  rw [goteNode_eq hi]
  exact List.get_mem _ _

/-- The positions are in the order of the source book. -/
theorem goteNode_lt {j : Nat} (hij : i < j) (hj : j < book.goteNodes.length) :
    goteNode book i < goteNode book j := by
  rw [goteNode_eq (hij.trans hj), goteNode_eq hj]
  exact List.pairwise_iff_get.mp ((List.pairwise_lt_range).filter _) _ _ hij

theorem get_goteRecords (hi : i < (goteRecords book pick).length) :
    (goteRecords book pick).get ⟨i, hi⟩ =
      (book.entryAt (goteNode book i), book.record (goteNode book i) (pick (goteNode book i))) := by
  rw [goteNode_eq (by rwa [← length_goteRecords])]
  exact List.getElem_map _

/-- The entries of the policy. -/
theorem readIndexEntry_policy {e : YbbIndexEntry} :
    (loaded (goteRecords book pick)).readIndexEntry i = some e ↔
      i < book.goteNodes.length ∧ e = outputEntry (book.entryAt (goteNode book i)) i := by
  by_cases hi : i < (goteRecords book pick).length
  · rw [readIndexEntry_loaded hi, get_goteRecords, Option.some_inj, ← length_goteRecords, eq_comm]
    exact (and_iff_right hi).symm
  · have hcount : (loaded (goteRecords book pick)).recordCount ≤ i := not_lt.mp hi
    rw [OpeningBook.readIndexEntry, if_pos hcount]
    rw [length_goteRecords] at hi
    exact iff_of_false (Option.some_ne_none _).symm fun h => hi h.1

/-- Its index is in order. -/
theorem sorted_policy (pick : Nat → Nat) (hwf : book.WellFormed) :
    (loaded (goteRecords book pick)).Sorted fun i => book.key (goteNode book i) := by
  have hcount : (loaded (goteRecords book pick)).recordCount = book.goteNodes.length :=
    length_goteRecords
  refine ⟨fun i hi => ?_, fun i j hij hj => ?_⟩
  · rw [readIndexEntry_policy.mpr ⟨hcount ▸ hi, rfl⟩]
    rfl
  · rw [hcount] at hj
    exact hwf.sorted _ _ (goteNode_lt hij hj) (mem_goteNodes.mp (goteNode_mem hj)).1

/-- The policy answers with the selected moves. -/
theorem answers_pick (hwf : book.WellFormed) (hcanon : book.Canonical)
    (hsmall : book.goteNodes.length ≤ 2 ^ 32) (hn : n ∈ book.goteNodes) (hpick : pick n < book.count n) :
    Answers book (loaded (goteRecords book pick)) n (pick n) := by
  obtain ⟨i, hi, hget⟩ := List.getElem_of_mem hn
  have hnode : goteNode book i = n := (goteNode_eq hi).trans hget
  obtain ⟨hlt, -⟩ := mem_goteNodes.mp hn
  obtain ⟨b, hboard, hlegal⟩ := hwf.legal n hlt
  obtain ⟨m, hm, hraw⟩ := hlegal (pick n) hpick
  obtain ⟨w, hw, hkey⟩ := Option.map_eq_some_iff.mp (hcanon.key_eq n hlt b hboard)
  have hplace : i < (goteRecords book pick).length := by rwa [length_goteRecords]
  have hfind : (loaded (goteRecords book pick)).find w.packed =
      some (outputEntry (book.entryAt n) i) := by
    have hfound := OpeningBook.find_of_mem (sorted_policy pick hwf) hplace
    rw [hkey, ← hnode, hfound]
    exact readIndexEntry_policy.mpr ⟨hi, by rw [hnode]⟩
  have hread : (loaded (goteRecords book pick)).readMove (outputEntry (book.entryAt n) i) 0 =
      some (book.record n (pick n)) := by
    have hmove := readMove_loaded (length_goteRecords.trans_le hsmall) hplace
    rwa [get_goteRecords, hnode] at hmove
  exact ⟨hpick, b, m, hboard, hm, hraw, OpeningBook.probe_single hw hfind rfl hread hm hraw⟩

/-- Two stored moves that the policy answers with are the same move. -/
theorem Answers.unique {l' : Nat} (h : Answers book policy n l) (h' : Answers book policy n l') :
    book.eval n l = book.eval n l' ∧ (book.record n l).move = (book.record n l').move := by
  obtain ⟨-, b, m, hboard, -, hraw, hprobe⟩ := h
  obtain ⟨-, b', m', hboard', -, hraw', hprobe'⟩ := h'
  cases hboard.symm.trans hboard'
  have heq := Option.some.inj (hprobe.symm.trans hprobe')
  rw [BookEntry.mk.injEq] at heq
  exact ⟨heq.2.1, hraw.symm.trans ((congrArg Move.raw heq.1).trans hraw')⟩

/-- The same move leads to the same positions. -/
theorem leads_congr {l' c : Nat} (h : (book.record n l).move = (book.record n l').move) :
    book.Leads n l c ↔ book.Leads n l' c := by
  rw [MappedYbb.Leads, MappedYbb.Leads, MappedYbb.childKey, MappedYbb.childKey, h]

/-! ### Games -/

/-- Each of Sente's moves comes nearer to an exit. -/
theorem sente_nearer {s : Solved} (h : Outcome options book s) (hwf : book.WellFormed)
    (hn : n < book.recordCount) (hsente : isGote (book.key n) = false)
    (hfinite : s.solution.distance n ≠ kExitDistanceInfinite) (hl : l < book.count n) {c : Nat}
    (hleads : book.Leads n l c) :
    s.solution.distance c ≠ kExitDistanceInfinite ∧ s.solution.distance c < s.solution.distance n := by
  have hchild : edgeChild book s.children n l = c := by
    rcases h.resolved n hn l hl with ⟨-, hgote, -⟩ | ⟨-, ⟨-, hnowhere⟩ | hleads'⟩
    · exact Bool.noConfusion (hsente.symm.trans hgote)
    · exact absurd hleads (hnowhere c)
    · exact key_inj hwf hleads'.1 hleads.1 (Option.some.inj (hleads'.2.symm.trans hleads.2))
  have hedge : (n, c) ∈ Graph.internal (exitGraph book book.recordCount s.children).edges :=
    Graph.mem_internal.mpr
      ⟨Graph.mem_edges.mpr ⟨hn, mem_children.mpr ⟨l, hl, hchild⟩⟩, hleads.1.trans h.nodes⟩
  exact (h.guides.sente n hsente hfinite).2 c hedge

/-- At a finite distance there is a stored move. -/
theorem exists_stored {s : Solved} (h : Outcome options book s)
    (hfinite : s.solution.distance n ≠ kExitDistanceInfinite) : 0 < book.count n := by
  cases hgote : isGote (book.key n) with
  | true =>
    obtain ⟨l, hl, -⟩ := exists_nearer h hgote hfinite
    exact Nat.zero_lt_of_lt hl
  | false =>
    obtain ⟨⟨c, hc, -⟩, -⟩ := h.guides.sente n hgote hfinite
    obtain ⟨l, hl, -⟩ := mem_children.mp (Graph.mem_edges.mp hc).2
    exact Nat.zero_lt_of_lt hl

/-- Games along which a distance decreases leave the book in time. -/
theorem leavesWithin_of_nearer {k : Nat}
    (hplays : ∀ n < book.recordCount, distance n ≠ kExitDistanceInfinite →
      0 < distance n ∧ ∃ l, Plays book policy n l)
    (hnearer : ∀ n < book.recordCount, distance n ≠ kExitDistanceInfinite → ∀ l c,
      Plays book policy n l → book.Leads n l c →
        distance c ≠ kExitDistanceInfinite ∧ distance c < distance n)
    (hn : n < book.recordCount) (hfinite : distance n ≠ kExitDistanceInfinite) (hk : distance n ≤ k) :
    LeavesWithin book policy k n := by
  -- the distance of the position bounds the plies that remain
  induction k generalizing n with
  | zero => exact absurd (hplays n hn hfinite).1 (by omega)
  | succ k ih =>
    refine ⟨(hplays n hn hfinite).2, fun l c hplay hleads => ?_⟩
    obtain ⟨hc, hlt⟩ := hnearer n hn hfinite l c hplay hleads
    exact ih hleads.1 hc (by omega)

/-- The policy of selected moves keeps its promise. -/
theorem promise_of_pick {s : Solved} (h : Outcome options book s) (hwf : book.WellFormed)
    (hcanon : book.Canonical)
    (hpick : ∀ n ∈ book.goteNodes, Good options book s.solution.distance n (pick n))
    (hgote : ∀ n < book.recordCount, 0 < book.count n → isGote (book.key n) = true →
      n ∈ book.goteNodes) :
    Promise options book s.solution.distance (loaded (goteRecords book pick)) := by
  have hsmall : book.goteNodes.length ≤ 2 ^ 32 :=
    length_goteNodes_le.trans (h.nodes.le.trans (by decide))
  have hanswers : ∀ n ∈ book.goteNodes, Answers book (loaded (goteRecords book pick)) n (pick n) :=
    fun n hn => answers_pick hwf hcanon hsmall hn (hpick n hn).stored
  have hnearer : ∀ n < book.recordCount, s.solution.distance n ≠ kExitDistanceInfinite → ∀ l c,
      Plays book (loaded (goteRecords book pick)) n l → book.Leads n l c →
        s.solution.distance c ≠ kExitDistanceInfinite ∧
          s.solution.distance c < s.solution.distance n := by
    intro n hn hfinite l c ⟨hl, hplay⟩ hleads
    cases hside : isGote (book.key n) with
    | true =>
      have hmem := hgote n hn (Nat.zero_lt_of_lt hl) hside
      have hmove := ((hplay hside).unique (hanswers n hmem)).2
      exact (hpick n hmem).nearer hfinite c ((leads_congr hmove).mp hleads)
    | false => exact sente_nearer h hwf hn hside hfinite hl hleads
  have hplays : ∀ n < book.recordCount, s.solution.distance n ≠ kExitDistanceInfinite →
      0 < s.solution.distance n ∧ ∃ l, Plays book (loaded (goteRecords book pick)) n l := by
    intro n hn hfinite
    have hpos := exists_stored h hfinite
    refine ⟨h.guides.pos n hfinite, ?_⟩
    cases hside : isGote (book.key n) with
    | true =>
      have hmem := hgote n hn hpos hside
      exact ⟨pick n, (hpick n hmem).stored, fun _ => hanswers n hmem⟩
    | false => exact ⟨0, hpos, fun hno => Bool.noConfusion (hside.symm.trans hno)⟩
  constructor
  · exact fun n b hboard => isGote_iff hboard
  · intro p
    constructor
    · rintro ⟨i, e, he, rfl⟩
      obtain ⟨hi, rfl⟩ := readIndexEntry_policy.mp he
      exact ⟨goteNode book i, goteNode_mem hi, rfl⟩
    · rintro ⟨n, hn, rfl⟩
      obtain ⟨i, hi, hget⟩ := List.getElem_of_mem hn
      refine ⟨i, _, readIndexEntry_policy.mpr ⟨hi, rfl⟩, ?_⟩
      rw [(goteNode_eq hi).trans hget]
      rfl
  · intro i e he
    obtain ⟨-, rfl⟩ := readIndexEntry_policy.mp he
    rfl
  · intro i j e e' hij he he'
    obtain ⟨-, rfl⟩ := readIndexEntry_policy.mp he
    obtain ⟨hj, rfl⟩ := readIndexEntry_policy.mp he'
    exact hwf.sorted _ _ (goteNode_lt hij hj) (mem_goteNodes.mp (goteNode_mem hj)).1
  · exact fun n hn => ⟨pick n, hanswers n hn⟩
  · intro n hn l hl hfinite l' hl'
    rw [(hl.unique (hanswers n hn)).1]
    exact (hpick n hn).margin hfinite l' hl'
  · intro n hn l hl hinfinite l' hl'
    rw [(hl.unique (hanswers n hn)).1]
    exact (hpick n hn).best hinfinite l' hl'
  · exact hnearer
  · exact fun n hn hfinite => leavesWithin_of_nearer hplays hnearer hn hfinite le_rfl

end Policy

/-- For every source book in order, whose stored moves are legal and whose keys are the ones that are
written for its positions, the generated book can be loaded and keeps its promise. -/
theorem generate_keeps_promise (options : Options) (sourcePath path : String) (source : List (BitVec 8))
    (book : MappedYbb) (hall : options.maxPositions = 0)
    (hfile : MappedYbb.ofFile sourcePath source = .ok book) (hwf : book.WellFormed)
    (hcanon : book.Canonical) (hfits : book.Fits) :
    ∃ s out policy, solve options sourcePath source = .ok s ∧
      generate options sourcePath source = .ok out ∧
      OpeningBook.load path (some out) = .ok policy ∧
      Promise options book s.solution.distance policy := by
  have hmap := mapped_of_ofFile hfile
  obtain ⟨s, hsolve, hs⟩ := exists_solved hfile hwf hcanon hfits hall
  have hshape : ∀ n < book.recordCount, ∀ l < book.count n,
      plausibleMove (book.record n l).move = true := by
    intro n hn l hl
    obtain ⟨b, -, hplay⟩ := exists_playable hwf hcanon hn
    exact (hplay l hl).shape
  have hgood : ∀ n, ∃ l, n ∈ book.goteNodes →
      selectGoteMove book s.children s.solution.distance n = .ok (some l) ∧
        Good options book s.solution.distance n l := by
    intro n
    by_cases hn : n ∈ book.goteNodes
    · obtain ⟨hlt, hgote, l, hl, -⟩ := mem_goteNodes.mp hn
      obtain ⟨l, hl⟩ := selectGoteMove_good hmap hwf hs hlt (hshape n hlt) hgote (Nat.zero_lt_of_lt hl)
      exact ⟨l, fun _ => hl⟩
    · exact ⟨0, fun h => absurd h hn⟩
  choose pick hpick using hgood
  have hwrite := writeOutput_eq hmap hwf hshape fun n hn =>
    ⟨(hpick n hn).2.stored, (hpick n hn).1⟩
  refine ⟨s, outputBytes (goteRecords book pick), loaded (goteRecords book pick), hsolve, ?_,
    load_outputBytes path ?_, promise_of_pick hs hwf hcanon (fun n hn => (hpick n hn).2) ?_⟩
  · rw [generate, hsolve]
    show writeOutput s.book s.prepared.nodeCount s.children s.solution.distance = _
    rw [hs.same, hs.nodeCount]
    exact hwrite
  · rw [length_goteRecords]
    exact length_goteNodes_le.trans (hs.nodes.le.trans (by decide))
  · exact fun n hn hpos hgote => mem_goteNodes.mpr ⟨hn, hgote, 0, hpos, hshape n hn 0 hpos⟩

/-! ### Books of one position -/

/-- A book of one position, once it is mapped. -/
def mappedBookOf (entry : YbbIndexEntry) (moves : List YbbMoveRecord) : MappedYbb :=
  ⟨bookOf entry moves, 1, kYbbFlagMoveDepth, 76⟩

section Single

variable {book : MappedYbb}

theorem exists_of_any {α : Type} {x : Option α} {q : α → Bool} (h : x.any q = true) :
    ∃ a, x = some a ∧ q a = true := by
  cases x with
  | none => cases h
  | some a => exact ⟨a, rfl, h⟩

theorem wellFormed_single (hone : book.recordCount = 1) (hoffset : (book.entryAt 0).movesOffset = 0#64)
    (hcomplete : book.movesBase + book.count 0 * book.moveRecordSize = book.contents.length)
    (hlegal : ((book.board 0).any fun b => (List.range (book.count 0)).all fun l =>
      b.generateLegalMoves.any fun m => m.raw == (book.record 0 l).move) = true) : book.WellFormed where
  sorted i j hij hj := absurd hj (by omega)
  contiguous i hi := by
    rw [show i = 0 by omega, hoffset]
    rfl
  complete := by
    rw [hone, ← hcomplete, PrefixSums.before, PrefixSums.before, Nat.zero_add]
  legal i hi := by
    rw [show i = 0 by omega]
    obtain ⟨b, hb, hall⟩ := exists_of_any hlegal
    refine ⟨b, hb, fun l hl => ?_⟩
    obtain ⟨m, hm, heq⟩ := List.any_eq_true.mp (List.all_eq_true.mp hall l (List.mem_range.mpr hl))
    exact ⟨m, hm, beq_iff_eq.mp heq⟩

theorem canonical_single (hone : book.recordCount = 1)
    (hkey : ((book.board 0).bind fun b => b.toPackedSfen.map PackedSfen.BitWriter.packed) =
      some (book.key 0))
    (hsafe : ((book.board 0).all fun b => b.inCheck (~~~b.sideToMove) == false) = true) :
    book.Canonical where
  key_eq i hi b hb := by
    rw [show i = 0 by omega] at hb ⊢
    rw [hb] at hkey
    exact hkey
  safe i hi b hb := by
    rw [show i = 0 by omega] at hb
    rw [hb] at hsafe
    exact beq_iff_eq.mp hsafe

theorem fits_single (hone : book.recordCount = 1) : book.Fits where
  nodes := by
    rw [hone]
    decide
  arrivals c := by
    rw [MappedYbb.arrivals, hone, List.range_one, List.map_singleton, List.sum_singleton]
    refine List.countP_le_length.trans ?_
    rw [List.length_range]
    exact (BitVec.isLt _).le.trans (by decide)

end Single

/-- Sente's rook faces Gote's king, and Sente is to move. -/
def hangingEntry : YbbIndexEntry :=
  ⟨.ofBytes [88#8, 36#8, 0#8, 0#8, 0#8, 0#8, 248#8, 1#8, 0#8, 0#8, 0#8, 0#8, 64#8, 146#8, 36#8, 73#8,
    146#8, 36#8, 73#8, 74#8, 41#8, 165#8, 214#8, 90#8, 91#8, 107#8, 173#8, 189#8, 247#8, 126#8, 189#8,
    126#8], 0#64, 1#16, 1#16⟩

/-- The rook captures the king. -/
def hangingMoves : List YbbMoveRecord := [⟨4772#16, 0#16, 0#16⟩]

/-- The options if none are given. -/
def defaultOptions : Options := ⟨30, 0, false⟩

theorem wellFormed_kings (last : BitVec 8) (h : last = 126#8 ∨ last = 254#8) :
    (mappedBookOf (kingsEntry last) kingsMoves).WellFormed := by
  rcases h with rfl | rfl
  · exact wellFormed_single rfl (by decide +kernel) (by decide +kernel) (by decide +kernel)
  · exact wellFormed_single rfl (by decide +kernel) (by decide +kernel) (by decide +kernel)

theorem generate_keeps_promise_kings :
    ∃ s out policy, solve defaultOptions "" (bookOf (kingsEntry 126#8) kingsMoves) = .ok s ∧
      generate defaultOptions "" (bookOf (kingsEntry 126#8) kingsMoves) = .ok out ∧
      OpeningBook.load "" (some out) = .ok policy ∧
      Promise defaultOptions (mappedBookOf (kingsEntry 126#8) kingsMoves) s.solution.distance policy :=
  generate_keeps_promise defaultOptions "" "" (bookOf (kingsEntry 126#8) kingsMoves)
    (mappedBookOf (kingsEntry 126#8) kingsMoves) rfl
    (eq_ok_of_toOption (by decide +kernel)) (wellFormed_kings _ (Or.inl rfl))
    (canonical_single rfl (by decide +kernel) (by decide +kernel)) (fits_single rfl)

/-- A book whose key is not the one that is written for its position gives a policy without an answer
there, and a book in which a king is captured gives none at all. -/
theorem not_promise_kings :
    (MappedYbb.ofFile "" (bookOf (kingsEntry 254#8) kingsMoves) =
        .ok (mappedBookOf (kingsEntry 254#8) kingsMoves) ∧
      (mappedBookOf (kingsEntry 254#8) kingsMoves).WellFormed ∧
      0 ∈ (mappedBookOf (kingsEntry 254#8) kingsMoves).goteNodes ∧
      ∃ out policy b, generate defaultOptions "" (bookOf (kingsEntry 254#8) kingsMoves) = .ok out ∧
        OpeningBook.load "" (some out) = .ok policy ∧
        (mappedBookOf (kingsEntry 254#8) kingsMoves).board 0 = some b ∧ policy.probe b = none) ∧
    MappedYbb.ofFile "" (bookOf hangingEntry hangingMoves) =
        .ok (mappedBookOf hangingEntry hangingMoves) ∧
      (mappedBookOf hangingEntry hangingMoves).WellFormed ∧
      ∀ out, generate defaultOptions "" (bookOf hangingEntry hangingMoves) ≠ .ok out := by
  have hwritten : (generate defaultOptions "" (bookOf (kingsEntry 254#8) kingsMoves)).toOption.any
      (fun out => (OpeningBook.load "" (some out)).toOption.any fun policy =>
        ((mappedBookOf (kingsEntry 254#8) kingsMoves).board 0).any fun b =>
          (policy.probe b).isNone) = true := by decide +kernel
  obtain ⟨out, hout, hwritten⟩ := exists_of_any hwritten
  obtain ⟨policy, hpolicy, hwritten⟩ := exists_of_any hwritten
  obtain ⟨b, hb, hprobe⟩ := exists_of_any hwritten
  have hnothing : (generate defaultOptions "" (bookOf hangingEntry hangingMoves)).toOption.isNone = true := by
    decide +kernel
  refine ⟨⟨eq_ok_of_toOption (by decide +kernel), wellFormed_kings _ (Or.inr rfl), by decide +kernel,
    out, policy, b, eq_ok_of_toOption hout, eq_ok_of_toOption hpolicy, hb,
    Option.isNone_iff_eq_none.mp hprobe⟩, eq_ok_of_toOption (by decide +kernel),
    wellFormed_single rfl (by decide +kernel) (by decide +kernel) (by decide +kernel), fun out hout => ?_⟩
  rw [hout] at hnothing
  cases hnothing

end GoteBook

end Shogi
