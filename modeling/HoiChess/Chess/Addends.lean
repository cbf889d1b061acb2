import HoiChess.Lib.Accumulate
import HoiChess.Chess.Attack
import HoiChess.Chess.Mobility
import HoiChess.Chess.ScoreBounds

/-!
# What the plugins add up

Each plugin starts from 0 and adds one number after the other to its score.  `knightAddends` and
so on are these numbers in the order in which they are added; their sum is the score of the
plugin (`sums_plugins`).  On a board with at most one man on a square their weight is small,
however many queens there are (`weight_pieces_le`).
-/

namespace HoiChess.Chess.Board

open WordSet Grid Rules Accumulate

section Addends

variable [Build] (b : Board)

/-- What one round of the loop over the pawns adds. -/
def pawnAddendsAt (phase : Phase) (side : Color) (passed : Bitboard) (sq : Square) : List Int :=
  [(pawnScores phase).get (sideSquare side sq),
    if Bitboard.any (isolatedPawnMask sq &&& b.pos side .pawn) then 0 else -10] ++
  if Bitboard.any (passedPawnMask side sq &&& b.pos side.xside .pawn) then []
  else [passedPawn |(sideRank side rank8 : Int) - rnk sq|,
    if Bitboard.any (Bitboard.setbit passed sq &&& connectedPawnMask sq) then 20 else 0]

/-- The loop over the pawns, with `passed_pawns[side]` so far. -/
def pawnLoopAddends (phase : Phase) (side : Color) : Bitboard → List Square → List Int
  | _, [] => []
  | passed, sq :: l => b.pawnAddendsAt phase side passed sq ++
      pawnLoopAddends phase side (b.scorePawnsStep phase side (0, passed) sq).2 l

def pawnAddends (phase : Phase) (side : Color) : List Int :=
  (List.finRange 8).map (fun f =>
    if Bitboard.popcnt (b.pos side .pawn &&& fileBb f) > 1 then -5 else 0) ++
  b.pawnLoopAddends phase side nullBitboard (squares (b.pos side .pawn))

def knightAddends (side : Color) : List Int :=
  (squares (b.pos side .knight)).flatMap fun sq =>
    [knightScores.get sq, worth (knightAttacks sq &&& ~~~ b.getPieces side) 2]

def bishopAddends (side : Color) : List Int :=
  (squares (b.pos side .bishop)).flatMap fun sq =>
    [worth (b.bishopAttacks sq &&& ~~~ b.getPieces side) 2,
      worth (b.pawnCaptures sq side.xside &&& b.pos side .pawn) 25,
      if rnk sq = sideRank side rank2 ∧ (fil sq = 1 ∨ fil sq = 6) then 15 else 0]

/-- What a rook on the seventh rank adds. -/
def seventhRankAddends (side : Color) : List Int :=
  [if Bitboard.any (b.pos side.xside .pawn &&&
      rankBb ⟨sideRank side rank7, sideRank_rank7_lt side⟩) then 20 else 0,
    if ((b.getKing side.xside).map rnk).getD 0 = sideRank side rank8 then 50 else 0]

/-- What a passed pawn on the file of a rook adds. -/
def rookAndPawnAddends (side : Color) (sq pp : Square) : List Int :=
  match side with
  | .white => [if rnk sq > rnk pp then -15 else 0, if rnk sq < rnk pp then 25 else 0]
  | .black => [if rnk sq < rnk pp then -15 else 0, if rnk sq > rnk pp then 25 else 0]

def rookAddends (phase : Phase) (passed : Bitboard) (side : Color) : List Int :=
  (squares (b.pos side .rook)).flatMap fun sq =>
    [worth (b.rookAttacks sq &&& ~~~ b.getPieces side) 2,
      if phase ≠ .endgame ∧ rnk sq ≠ sideRank side rank1 then -10 else 0,
      b.openFile side (fileOf sq)] ++
    (if phase ≠ .endgame ∧ rnk sq = sideRank side rank7 then b.seventhRankAddends side else []) ++
    (squares (passed &&& fileBb (fileOf sq))).flatMap (rookAndPawnAddends side sq)

def queenAddends (side : Color) : List Int :=
  (squares (b.pos side .queen)).flatMap fun sq =>
    [worth (b.queenAttacks sq &&& ~~~ b.getPieces side) 1]

def kingAddends (phase : Phase) (side : Color) : List Int :=
  match b.getKing side with
  | none => []
  | some kingsq =>
    [if phase = .endgame then kingScoresEndgame.get kingsq else kingScores.get kingsq,
      if phase ≠ .endgame ∧ Bitboard.any (b.pos side .king &&& kingmask side) then
        worth (kingAttacks kingsq &&& pawnmask side &&& b.pos side .pawn) 8
      else 0]

def develAddends (phase : Phase) (side : Color) : List Int :=
  if phase ≠ .opening then []
  else
    (squares (b.pos side .knight ||| b.pos side .bishop)).map
      (fun sq => if b.pceMovecnt.get sq = 0#32 then -15 else 0) ++
    (squares (b.pos side .rook)).map (fun sq => if b.pceMovecnt.get sq = 0#32 then 0 else -20) ++
    (squares (b.pos side .queen)).map (fun sq => if b.pceMovecnt.get sq = 0#32 then 0 else -25) ++
    [if b.hasCastled.get side then 32 else if b.canCastle side then 16 else 0]

def comboAddends (side : Color) : List Int :=
  (squares (b.pos side .queen)).flatMap fun q =>
    (squares (b.bishopAttacks q &&& b.pos side .bishop)).map
      (fun t => if Bitboard.any (b.occupied &&& rayBb q t) then 0 else 15) ++
    (squares (b.rookAttacks q &&& b.pos side .rook)).map
      (fun t => if Bitboard.any (b.occupied &&& rayBb q t) then 0 else 30)

def controlAddends (side : Color) : List Int :=
  (List.finRange 64).map fun sq =>
    controlScore.get sq *
      (min (Bitboard.popcnt (b.attackers sq side)) (controlMaxattackers.get sq) : Nat)

/-! ## Their sums -/

variable (phase : Phase) (passed : Bitboard) (side : Color)

omit [Build] in
theorem scorePawnsStep_eq (st : Int × Bitboard) (sq : Square) :
    b.scorePawnsStep phase side st sq = (st.1 + (b.pawnAddendsAt phase side st.2 sq).sum,
      (b.scorePawnsStep phase side (0, st.2) sq).2) := by
  unfold scorePawnsStep pawnAddendsAt
  simp only
  split_ifs <;> simp only [List.append_nil, List.cons_append, List.nil_append, List.sum_cons,
    List.sum_nil] <;> refine Prod.ext ?_ rfl <;> simp only <;> ring

theorem sum_pawnAddends : (b.pawnAddends phase side).sum = (b.scorePawnsLoop phase side).1 := by
  have hloop : ∀ (l : List Square) (st : Int × Bitboard),
      (l.foldl (b.scorePawnsStep phase side) st).1 =
        st.1 + (b.pawnLoopAddends phase side st.2 l).sum := by
    intro l
    induction l with
    | nil => intro st; simp [pawnLoopAddends]
    | cons sq l ih =>
      intro st
      rw [List.foldl_cons, b.scorePawnsStep_eq phase side st sq, ih, pawnLoopAddends, List.sum_append,
        add_assoc]
  unfold pawnAddends scorePawnsLoop
  rw [hloop, List.sum_append]
  rfl

theorem sum_knightAddends : (b.knightAddends side).sum = b.scoreKnights side := by
  simp [knightAddends, scoreKnights, scoreOver, sum_flatMap]

theorem sum_bishopAddends : (b.bishopAddends side).sum = b.scoreBishops side := by
  simp [bishopAddends, scoreBishops, scoreOver, sum_flatMap, add_assoc]

theorem sum_rookAddends : (b.rookAddends phase passed side).sum = b.scoreRooks phase passed side := by
  have hpawn : ∀ sq pp, (rookAndPawnAddends side sq pp).sum = rookAndPawn side sq pp := by
    intro sq pp
    cases side <;> simp [rookAndPawnAddends, rookAndPawn]
  have hseventh : (b.seventhRankAddends side).sum = b.seventhRank side := by
    simp [seventhRankAddends, seventhRank]
  simp only [rookAddends, scoreRooks, scoreOver, sum_flatMap, List.sum_append, hpawn, List.sum_cons,
    List.sum_nil, add_zero, apply_ite List.sum, hseventh, add_assoc]

theorem sum_queenAddends : (b.queenAddends side).sum = b.scoreQueens side := by
  simp [queenAddends, scoreQueens, scoreOver, sum_flatMap]

omit [Build] in
theorem sum_kingAddends : (b.kingAddends phase side).sum = b.scoreKing phase side := by
  unfold kingAddends scoreKing
  cases b.getKing side <;> simp only [List.sum_cons, List.sum_nil, add_zero]

theorem sum_develAddends : (b.develAddends phase side).sum = b.scoreDevel phase side := by
  unfold develAddends scoreDevel
  split <;> simp [scoreOver, add_assoc]

theorem sum_comboAddends : (b.comboAddends side).sum = b.scoreCombo side := by
  simp [comboAddends, scoreCombo, scoreOver, sum_flatMap]

end Addends

/-! ## Attacked squares -/

theorem popcnt_leaper_le {dirs : List Dir}
    (h : ∀ d ∈ dirs, (-2 ≤ d.1 ∧ d.1 ≤ 2) ∧ (-2 ≤ d.2 ∧ d.2 ≤ 2)) (sq : Square) :
    Bitboard.popcnt (leaper dirs sq) ≤ dirs.length := by
  refine le_trans (count_le_length (l := dirs.filterMap (step sq)) fun t ht => ?_)
    (List.length_filterMap_le _ _)
  obtain ⟨d, hd, hal⟩ := (mem_leaper h sq t).mp ht
  exact List.mem_filterMap.mpr ⟨d, hd, step_eq_some.mpr hal⟩

theorem popcnt_slider_le {dirs : List Dir} (h : ∀ d ∈ dirs, d ∈ kingDirs) (sq : Square) :
    Bitboard.popcnt (slider dirs sq) ≤ (dirs.flatMap fun d => walk (fun _ => false) d 8 sq).length := by
  refine count_le_length fun t ht => ?_
  obtain ⟨d, hd, hal⟩ := (mem_slider h sq t).mp ht
  exact List.mem_flatMap.mpr ⟨d, hd, (mem_walk_empty (h d hd)).mpr hal⟩

theorem length_bishopWalks_le : ∀ sq : Square,
    (bishopTableDirs.flatMap fun d => walk (fun _ => false) d 8 sq).length ≤ 13 := by
  decide +kernel

theorem length_rookWalks_le : ∀ sq : Square,
    (rookTableDirs.flatMap fun d => walk (fun _ => false) d 8 sq).length ≤ 14 := by
  decide +kernel

theorem popcnt_tables (sq : Square) : Bitboard.popcnt (attackBb .knight sq) ≤ 8 ∧
    Bitboard.popcnt (attackBb .bishop sq) ≤ 13 ∧ Bitboard.popcnt (attackBb .rook sq) ≤ 14 ∧
    Bitboard.popcnt (attackBb .king sq) ≤ 8 ∧ ∀ c, Bitboard.popcnt (pawnCaptBb c sq) ≤ 2 := by
  refine ⟨@popcnt_leaper_le knightDirs (by decide) sq, ?_, ?_,
    @popcnt_leaper_le kingStepDirs (by decide) sq, fun c => ?_⟩
  · exact (popcnt_slider_le (by decide) sq).trans (length_bishopWalks_le sq)
  · exact (popcnt_slider_le (by decide) sq).trans (length_rookWalks_le sq)
  · cases c <;> exact popcnt_leaper_le (by decide) sq

theorem popcnt_fileBb_le : ∀ f, Bitboard.popcnt (fileBb f) ≤ 8 := by decide

theorem popcnt_and_le (x y : Bitboard) : Bitboard.popcnt (x &&& y) ≤ Bitboard.popcnt x := by
  refine count_mono fun sq h => ?_
  rw [mem_and, Bool.and_eq_true] at h
  exact h.1

section Attacks

variable [Build] {b : Board} {man : Placement} (h : Consistent b man) (sq : Square)

include h

theorem popcnt_bishopAttacks_le : Bitboard.popcnt (b.bishopAttacks sq) ≤ 13 := by
  refine le_trans (count_mono fun t ht => ?_) (popcnt_tables sq).2.1
  obtain ⟨hg | hal, _⟩ := mem_reach.mp ((mem_bishopAttacks h .white sq t).mp ht)
  · simp [leapDirs] at hg
  · exact (mem_bishopTable sq t).mpr hal

theorem popcnt_rookAttacks_le : Bitboard.popcnt (b.rookAttacks sq) ≤ 14 := by
  refine le_trans (count_mono fun t ht => ?_) (popcnt_tables sq).2.2.1
  obtain ⟨hg | hal, _⟩ := mem_reach.mp ((mem_rookAttacks h .white sq t).mp ht)
  · simp [leapDirs] at hg
  · exact (mem_rookTable sq t).mpr hal

theorem popcnt_queenAttacks_le : Bitboard.popcnt (b.queenAttacks sq) ≤ 27 :=
  (count_or_le _ _).trans (add_le_add (popcnt_bishopAttacks_le h sq) (popcnt_rookAttacks_le h sq))

theorem popcnt_pawnCaptures_le (c : Color) : Bitboard.popcnt (b.pawnCaptures sq c) ≤ 2 := by
  refine le_trans (count_mono fun t ht => ?_) ((popcnt_tables sq).2.2.2.2 c)
  exact (mem_pawnCaptBb_iff c sq t).mpr ((mem_reach_leap rfl).mp ((mem_pawnCaptures h c sq t).mp ht).1)

end Attacks

/-! ## Their weights -/

theorem abs_worth_le_mul {bb : Bitboard} {n : Nat} (hn : Bitboard.popcnt bb ≤ n) {w : Int} (hw : 0 ≤ w) :
    |worth bb w| ≤ n * w := by
  have hcount : (Bitboard.popcnt bb : Int) ≤ n := by exact_mod_cast hn
  unfold worth
  rw [abs_mul, abs_of_nonneg hw, abs_of_nonneg (Int.natCast_nonneg _)]
  exact mul_le_mul_of_nonneg_right hcount hw

section Weights

variable [Build] {b : Board} {man : Placement}

theorem length_squares (bb : Bitboard) : (squares bb).length = Bitboard.popcnt bb := by
  unfold squares
  exact length_drain _ _

/-- The loops over the squares of a word: at most `n` rounds, which add at most `m` each. -/
theorem weight_squares_le {bb : Bitboard} {n : Nat} (hn : Bitboard.popcnt bb ≤ n)
    {f : Square → List Int} {m : Int} (h : ∀ sq, weight (f sq) ≤ m) :
    weight ((squares bb).flatMap f) ≤ n * m := by
  have hm : 0 ≤ m := (weight_nonneg _).trans (h 0)
  have hlen : ((squares bb).length : Int) ≤ n := by
    rw [length_squares]
    exact_mod_cast hn
  exact (weight_flatMap_le fun sq _ => h sq).trans (mul_le_mul_of_nonneg_right hlen hm)

theorem weight_squares_map_le {bb : Bitboard} {n : Nat} (hn : Bitboard.popcnt bb ≤ n)
    {f : Square → Int} {m : Int} (h : ∀ sq, |f sq| ≤ m) : weight ((squares bb).map f) ≤ n * m := by
  rw [List.map_eq_flatMap]
  exact weight_squares_le hn fun sq => by simpa using h sq

omit [Build] in
theorem weight_pawnAddendsAt_le (b : Board) (phase : Phase) (side : Color) (passed : Bitboard)
    (sq : Square) : weight (b.pawnAddendsAt phase side passed sq) ≤ 167 := by
  have h1 := abs_pawnScores_le phase (sideSquare side sq)
  have h2 := abs_passedPawn_le |(sideRank side rank8 : Int) - rnk sq|
  have h3 : |if Bitboard.any (isolatedPawnMask sq &&& b.pos side .pawn) then (0 : Int) else -10| ≤ 10 :=
    abs_ite_le (by decide) (by decide)
  have h4 : |if Bitboard.any (Bitboard.setbit passed sq &&& connectedPawnMask sq) then (20 : Int)
      else 0| ≤ 20 := abs_ite_le (by decide) (by decide)
  have h5 : weight (if Bitboard.any (passedPawnMask side sq &&& b.pos side.xside .pawn) then []
      else [passedPawn |(sideRank side rank8 : Int) - rnk sq|,
        if Bitboard.any (Bitboard.setbit passed sq &&& connectedPawnMask sq) then 20 else 0]) ≤ 125 := by
    split
    · decide
    · simp only [weight_cons, weight_nil]
      linarith
  unfold pawnAddendsAt
  simp only [weight_append, weight_cons, weight_nil]
  linarith

/-- The pawns of one side, wherever they stand. -/
theorem weight_pawnAddends_le (b : Board) (phase : Phase) (side : Color) :
    weight (b.pawnAddends phase side) ≤ 10728 := by
  have hloop : ∀ (l : List Square) (passed : Bitboard),
      weight (b.pawnLoopAddends phase side passed l) ≤ l.length * 167 := by
    intro l
    induction l with
    | nil => intro passed; simp [pawnLoopAddends]
    | cons sq l ih =>
      intro passed
      have h1 := b.weight_pawnAddendsAt_le phase side passed sq
      have h2 := ih (b.scorePawnsStep phase side (0, passed) sq).2
      rw [pawnLoopAddends, weight_append, List.length_cons]
      push_cast
      linarith
  have hdouble : weight ((List.finRange 8).map fun f =>
      if Bitboard.popcnt (b.pos side .pawn &&& fileBb f) > 1 then (-5 : Int) else 0) ≤ 8 * 5 := by
    refine (weight_map_le (m := 5) fun f _ => abs_ite_le (by decide) (by decide)).trans ?_
    rw [List.length_finRange]
    decide
  have hlen : ((squares (b.pos side .pawn)).length : Int) ≤ 64 := by
    exact_mod_cast squares_length_le _
  have h := hloop (squares (b.pos side .pawn)) nullBitboard
  unfold pawnAddends
  rw [weight_append]
  linarith

omit [Build] in
theorem weight_kingAddends_le (b : Board) (phase : Phase) (side : Color) :
    weight (b.kingAddends phase side) ≤ 144 := by
  unfold kingAddends
  split
  · decide
  · rename_i sq _
    obtain ⟨h1, h2⟩ := abs_kingScores_le sq
    have hshield : |worth (kingAttacks sq &&& pawnmask side &&& b.pos side .pawn) 8| ≤ (8 : Nat) * 8 :=
      abs_worth_le_mul ((popcnt_and_le _ _).trans ((popcnt_and_le _ _).trans
        (popcnt_tables sq).2.2.2.1)) (by decide)
    have hscore : |if phase = .endgame then kingScoresEndgame.get sq else kingScores.get sq| ≤ 80 :=
      abs_ite_le h2 h1
    have hbonus : |if phase ≠ .endgame ∧ Bitboard.any (b.pos side .king &&& kingmask side) then
        worth (kingAttacks sq &&& pawnmask side &&& b.pos side .pawn) 8 else 0| ≤ (8 : Nat) * 8 :=
      abs_ite_le hshield (by decide)
    simp only [weight_cons, weight_nil]
    push_cast at hbonus
    linarith

omit [Build] in
theorem weight_controlAddends_le (b : Board) (side : Color) : weight (b.controlAddends side) ≤ 2048 := by
  refine (weight_map_le (m := 4 * 8) fun sq _ => ?_).trans ?_
  · obtain ⟨h1, h2⟩ := abs_controlScore_le sq
    have h3 : min (Bitboard.popcnt (b.attackers sq side)) (controlMaxattackers.get sq) ≤ 8 :=
      (min_le_right _ _).trans h2
    rw [abs_mul, abs_of_nonneg (Int.natCast_nonneg _)]
    exact mul_le_mul h1 (by exact_mod_cast h3) (Int.natCast_nonneg _) (by decide)
  · rw [List.length_finRange]
    decide

section Pieces

variable (h : Consistent b man) (side : Color)

theorem weight_knightAddends_le : weight (b.knightAddends side) ≤
    Bitboard.popcnt (b.pos side .knight) * (31 : Int) := by
  refine weight_squares_le le_rfl fun sq => ?_
  have h1 := abs_knightScores_le sq
  have h2 : |worth (knightAttacks sq &&& ~~~ b.getPieces side) 2| ≤ (8 : Nat) * 2 :=
    abs_worth_le_mul ((popcnt_and_le _ _).trans (popcnt_tables sq).1) (by decide)
  simp only [weight_cons, weight_nil]
  push_cast at h2
  linarith

include h

theorem weight_bishopAddends_le : weight (b.bishopAddends side) ≤
    Bitboard.popcnt (b.pos side .bishop) * (91 : Int) := by
  refine weight_squares_le le_rfl fun sq => ?_
  have h1 : |worth (b.bishopAttacks sq &&& ~~~ b.getPieces side) 2| ≤ (13 : Nat) * 2 :=
    abs_worth_le_mul ((popcnt_and_le _ _).trans (popcnt_bishopAttacks_le h sq)) (by decide)
  have h2 : |worth (b.pawnCaptures sq side.xside &&& b.pos side .pawn) 25| ≤ (2 : Nat) * 25 :=
    abs_worth_le_mul ((popcnt_and_le _ _).trans (popcnt_pawnCaptures_le h sq _)) (by decide)
  have h3 : |if rnk sq = sideRank side rank2 ∧ (fil sq = 1 ∨ fil sq = 6) then (15 : Int) else 0| ≤ 15 :=
    abs_ite_le (by decide) (by decide)
  simp only [weight_cons, weight_nil]
  push_cast at h1 h2
  linarith

theorem weight_queenAddends_le : weight (b.queenAddends side) ≤
    Bitboard.popcnt (b.pos side .queen) * (27 : Int) := by
  refine weight_squares_le le_rfl fun sq => ?_
  have h1 : |worth (b.queenAttacks sq &&& ~~~ b.getPieces side) 1| ≤ (27 : Nat) * 1 :=
    abs_worth_le_mul ((popcnt_and_le _ _).trans (popcnt_queenAttacks_le h sq)) (by decide)
  simpa using h1

theorem weight_comboAddends_le : weight (b.comboAddends side) ≤
    Bitboard.popcnt (b.pos side .queen) * (615 : Int) := by
  refine weight_squares_le le_rfl fun q => ?_
  have h1 : weight ((squares (b.bishopAttacks q &&& b.pos side .bishop)).map fun t =>
      if Bitboard.any (b.occupied &&& rayBb q t) then (0 : Int) else 15) ≤ (13 : Nat) * 15 :=
    weight_squares_map_le ((popcnt_and_le _ _).trans (popcnt_bishopAttacks_le h q)) fun t =>
      abs_ite_le (by decide) (by decide)
  have h2 : weight ((squares (b.rookAttacks q &&& b.pos side .rook)).map fun t =>
      if Bitboard.any (b.occupied &&& rayBb q t) then (0 : Int) else 30) ≤ (14 : Nat) * 30 :=
    weight_squares_map_le ((popcnt_and_le _ _).trans (popcnt_rookAttacks_le h q)) fun t =>
      abs_ite_le (by decide) (by decide)
  rw [weight_append]
  push_cast at h1 h2
  linarith

theorem weight_rookAddends_le (phase : Phase) (passed : Bitboard) :
    weight (b.rookAddends phase passed side) ≤ Bitboard.popcnt (b.pos side .rook) * (438 : Int) := by
  refine weight_squares_le le_rfl fun sq => ?_
  have h1 : |worth (b.rookAttacks sq &&& ~~~ b.getPieces side) 2| ≤ (14 : Nat) * 2 :=
    abs_worth_le_mul ((popcnt_and_le _ _).trans (popcnt_rookAttacks_le h sq)) (by decide)
  have h2 : |if phase ≠ .endgame ∧ rnk sq ≠ sideRank side rank1 then (-10 : Int) else 0| ≤ 10 :=
    abs_ite_le (by decide) (by decide)
  have h3 : |b.openFile side (fileOf sq)| ≤ 10 :=
    abs_ite_le (by decide) (abs_ite_le (by decide) (by decide))
  have hseventh : weight (b.seventhRankAddends side) ≤ 20 + 50 := by
    unfold seventhRankAddends
    simp only [weight_cons, weight_nil, add_zero]
    exact add_le_add (abs_ite_le (by decide) (by decide)) (abs_ite_le (by decide) (by decide))
  have h4 : weight (if phase ≠ .endgame ∧ rnk sq = sideRank side rank7 then b.seventhRankAddends side
      else []) ≤ 70 := by
    split
    · exact hseventh
    · decide
  have hpawn : ∀ pp, weight (rookAndPawnAddends side sq pp) ≤ 15 + 25 := by
    intro pp
    cases side <;> simp only [rookAndPawnAddends, weight_cons, weight_nil, add_zero] <;>
      exact add_le_add (abs_ite_le (by decide) (by decide)) (abs_ite_le (by decide) (by decide))
  have h5 : weight ((squares (passed &&& fileBb (fileOf sq))).flatMap (rookAndPawnAddends side sq)) ≤
      (8 : Nat) * (15 + 25) := by
    refine weight_squares_le ?_ hpawn
    rw [BitVec.and_comm]
    exact (popcnt_and_le _ _).trans (popcnt_fileBb_le _)
  simp only [weight_append, weight_cons, weight_nil]
  push_cast at h1 h5
  linarith

end Pieces

theorem weight_develAddends_le (b : Board) (phase : Phase) (side : Color) :
    weight (b.develAddends phase side) ≤
      (Bitboard.popcnt (b.pos side .knight) + Bitboard.popcnt (b.pos side .bishop)) * (15 : Int) +
        Bitboard.popcnt (b.pos side .rook) * (20 : Int) +
          Bitboard.popcnt (b.pos side .queen) * (25 : Int) + 32 := by
  have h1 : weight ((squares (b.pos side .knight ||| b.pos side .bishop)).map fun sq =>
      if b.pceMovecnt.get sq = 0#32 then (-15 : Int) else 0) ≤
        (Bitboard.popcnt (b.pos side .knight) + Bitboard.popcnt (b.pos side .bishop) : Nat) * 15 :=
    weight_squares_map_le (count_or_le _ _) fun sq => abs_ite_le (by decide) (by decide)
  have h2 : weight ((squares (b.pos side .rook)).map fun sq =>
      if b.pceMovecnt.get sq = 0#32 then (0 : Int) else -20) ≤
        (Bitboard.popcnt (b.pos side .rook) : Nat) * 20 :=
    weight_squares_map_le le_rfl fun sq => abs_ite_le (by decide) (by decide)
  have h3 : weight ((squares (b.pos side .queen)).map fun sq =>
      if b.pceMovecnt.get sq = 0#32 then (0 : Int) else -25) ≤
        (Bitboard.popcnt (b.pos side .queen) : Nat) * 25 :=
    weight_squares_map_le le_rfl fun sq => abs_ite_le (by decide) (by decide)
  have h4 : |if b.hasCastled.get side then (32 : Int) else if b.canCastle side then 16 else 0| ≤ 32 :=
    abs_ite_le (by decide) (abs_ite_le (by decide) (by decide))
  push_cast at h1
  unfold develAddends
  split
  · have hnn := weight_nonneg ((squares (b.pos side .rook)).map fun sq =>
      if b.pceMovecnt.get sq = 0#32 then (0 : Int) else -20)
    rw [weight_nil]
    positivity
  · simp only [weight_append, weight_cons, weight_nil]
    linarith

/-! ## All pieces together -/

/-- The knights, bishops, rooks and queens of a side. -/
def pieceCount (b : Board) (side : Color) : Nat :=
  Bitboard.popcnt (b.pos side .knight) + Bitboard.popcnt (b.pos side .bishop) +
    Bitboard.popcnt (b.pos side .rook) + Bitboard.popcnt (b.pos side .queen)

/-- No square holds two of them. -/
theorem pieceCount_le (h : Consistent b man) : b.pieceCount .white + b.pieceCount .black ≤ 64 := by
  have hcount : ∀ l : List Square, ∀ n, n = l.length →
      l.countP (mem (b.pos .white .knight)) + l.countP (mem (b.pos .white .bishop)) +
        l.countP (mem (b.pos .white .rook)) + l.countP (mem (b.pos .white .queen)) +
          (l.countP (mem (b.pos .black .knight)) + l.countP (mem (b.pos .black .bishop)) +
            l.countP (mem (b.pos .black .rook)) + l.countP (mem (b.pos .black .queen))) ≤ n := by
    intro l
    induction l with
    | nil => simp
    | cons sq l ih =>
      rintro n rfl
      have hrest := ih l.length rfl
      simp only [List.countP_cons, List.length_cons, h.pos]
      cases man sq with
      | none =>
        simp
        omega
      | some m =>
        obtain ⟨c, p⟩ := m
        cases c <;> cases p <;> simp <;> omega
  simp only [pieceCount, Bitboard.popcnt, WordSet.count, ← List.countP_eq_length_filter]
  exact hcount _ 64 List.length_finRange.symm

/-- The plugins of phase 1 other than the pawns. -/
def plugins (b : Board) (phase : Phase) (passed : Bitboard) (side : Color) : List (List Int) :=
  [b.knightAddends side, b.bishopAddends side, b.rookAddends phase passed side, b.queenAddends side,
    b.kingAddends phase side, b.develAddends phase side, b.comboAddends side]

theorem sum_plugins (b : Board) (phase : Phase) (passed : Bitboard) (side : Color) :
    (b.plugins phase passed side).map List.sum =
      [b.scoreKnights side, b.scoreBishops side, b.scoreRooks phase passed side, b.scoreQueens side,
        b.scoreKing phase side, b.scoreDevel phase side, b.scoreCombo side] := by
  simp only [plugins, List.map_cons, List.map_nil, sum_knightAddends, sum_bishopAddends,
    sum_rookAddends, sum_queenAddends, sum_kingAddends, sum_develAddends, sum_comboAddends]

/-- A queen with all bonuses is the piece that counts most. -/
theorem weight_plugins_le (h : Consistent b man) (phase : Phase) (passed : Bitboard) (side : Color) :
    weight (b.plugins phase passed side).flatten ≤ b.pieceCount side * 667 + 176 := by
  have h1 : weight (b.knightAddends side) ≤ _ := weight_knightAddends_le side
  have h2 := weight_bishopAddends_le h side
  have h3 := weight_rookAddends_le h side phase passed
  have h4 := weight_queenAddends_le h side
  have h5 := weight_kingAddends_le b phase side
  have h6 := weight_develAddends_le b phase side
  have h7 := weight_comboAddends_le h side
  simp only [plugins, List.flatten_cons, List.flatten_nil, List.append_nil, weight_append]
  unfold pieceCount
  push_cast
  linarith

end Weights

end HoiChess.Chess.Board
