import Mathlib.Algebra.Order.Ring.Abs
import Mathlib.Tactic.Linarith
import HoiChess.Chess.Score

/-!
# The plugins are bounded

Every plugin adds up at most 64 contributions, each of which is small, so that no score
comes near the ends of the integers of the machine.
-/

namespace HoiChess.Chess.Board

open WordSet

/-- A sum of bounded terms. -/
theorem abs_sum_map_le {ι : Type} (l : List ι) {f : ι → Int} {m : Int} (h : ∀ i ∈ l, |f i| ≤ m) :
    |(l.map f).sum| ≤ l.length * m := by
  induction l with
  | nil => simp
  | cons i l ih =>
    have h1 := h i List.mem_cons_self
    have h2 := ih fun j hj => h j (List.mem_cons_of_mem i hj)
    have h3 := abs_add_le (f i) (l.map f).sum
    rw [List.map_cons, List.sum_cons, List.length_cons]
    push_cast
    linarith

theorem abs_worth_le (bb : Bitboard) {w : Int} (hw : 0 ≤ w) : |worth bb w| ≤ 64 * w := by
  have hcount : (Bitboard.popcnt bb : Int) ≤ 64 := by exact_mod_cast count_le bb
  unfold worth
  rw [abs_mul, abs_of_nonneg hw, abs_of_nonneg (Int.natCast_nonneg _)]
  exact mul_le_mul_of_nonneg_right hcount hw

theorem abs_ite_le {p : Prop} [Decidable p] {a c m : Int} (ha : |a| ≤ m) (hc : |c| ≤ m) :
    |if p then a else c| ≤ m := by
  split
  · exact ha
  · exact hc

/-! ## Tables -/

theorem abs_pawnScores_le : ∀ phase sq, |(pawnScores phase).get sq| ≤ 32 := by
  intro phase
  cases phase <;> decide

theorem abs_passedPawn_le (dist : Int) : |passedPawn dist| ≤ 105 := by
  have h : |(80 : Int).tdiv dist| ≤ 80 := by
    rw [Int.abs_eq_natAbs, Int.natAbs_tdiv]
    exact_mod_cast Nat.div_le_self _ _
  unfold passedPawn
  have := abs_add_le 25 ((80 : Int).tdiv dist)
  rw [show |(25 : Int)| = 25 from rfl] at this
  linarith

theorem abs_knightScores_le : ∀ sq, |knightScores.get sq| ≤ 15 := by decide

theorem abs_kingScores_le : ∀ sq, |kingScores.get sq| ≤ 80 ∧ |kingScoresEndgame.get sq| ≤ 80 := by
  decide

theorem abs_controlScore_le : ∀ sq, |controlScore.get sq| ≤ 4 ∧ controlMaxattackers.get sq ≤ 8 := by
  decide

section Plugins

variable [Build] (b : Board)

theorem squares_length_le (bb : Bitboard) : (squares bb).length ≤ 64 := by
  unfold squares
  rw [length_drain]
  exact count_le bb

theorem abs_scoreOver_le (bb : Bitboard) {f : Square → Int} {m : Int} (h : ∀ sq, |f sq| ≤ m) :
    |scoreOver bb f| ≤ 64 * m := by
  have hm : 0 ≤ m := (abs_nonneg _).trans (h 0)
  have hlen : ((squares bb).length : Int) ≤ 64 := by exact_mod_cast squares_length_le bb
  exact (abs_sum_map_le _ fun sq _ => h sq).trans (mul_le_mul_of_nonneg_right hlen hm)

/-! ## Pawns -/

omit [Build] in
theorem abs_scorePawnsStep_le (phase : Phase) (side : Color) (st : Int × Bitboard) (sq : Square) :
    |(b.scorePawnsStep phase side st sq).1| ≤ |st.1| + 167 := by
  have hpass := abs_passedPawn_le |(sideRank side rank8 : Int) - rnk sq|
  have h1 := abs_pawnScores_le phase (sideSquare side sq)
  unfold scorePawnsStep
  simp only
  generalize (pawnScores phase).get (sideSquare side sq) = x at h1
  generalize passedPawn |(sideRank side rank8 : Int) - rnk sq| = y at hpass
  rw [abs_le] at h1 hpass
  have hst := abs_nonneg st.1
  have hlo := neg_abs_le st.1
  have hhi := le_abs_self st.1
  split
  · rw [abs_le]
    split <;> constructor <;> simp only <;> linarith
  · rw [abs_le]
    split <;> split <;> constructor <;> simp only <;> linarith

theorem abs_scorePawnsLoop_le (phase : Phase) (side : Color) :
    |(b.scorePawnsLoop phase side).1| ≤ 12000 := by
  have hloop : ∀ (l : List Square) (st : Int × Bitboard),
      |(l.foldl (b.scorePawnsStep phase side) st).1| ≤ |st.1| + l.length * 167 := by
    intro l
    induction l with
    | nil => intro st; simp
    | cons sq l ih =>
      intro st
      have h1 := ih (b.scorePawnsStep phase side st sq)
      have h2 := b.abs_scorePawnsStep_le phase side st sq
      rw [List.foldl_cons, List.length_cons]
      push_cast
      linarith
  have hdouble : |doublePawns (b.pos side .pawn)| ≤ 8 * 5 := by
    unfold doublePawns
    refine (abs_sum_map_le (List.finRange 8) (m := 5) fun f _ => abs_ite_le (by decide) (by decide)).trans ?_
    rw [List.length_finRange]
    decide
  have hlen : ((squares (b.pos side .pawn)).length : Int) ≤ 64 := by
    exact_mod_cast squares_length_le _
  have h := hloop (squares (b.pos side .pawn)) (doublePawns (b.pos side .pawn), nullBitboard)
  unfold scorePawnsLoop
  simp only at h
  linarith

/-! ## The other pieces -/

variable (side : Color)

theorem abs_scoreKnights_le : |b.scoreKnights side| ≤ 64 * (15 + 64 * 2) := by
  refine abs_scoreOver_le _ fun sq => (abs_add_le _ _).trans ?_
  exact add_le_add (abs_knightScores_le sq) (abs_worth_le _ (by decide))

theorem abs_scoreBishops_le : |b.scoreBishops side| ≤ 64 * (64 * 2 + 64 * 25 + 15) := by
  refine abs_scoreOver_le _ fun sq => (abs_add_three _ _ _).trans ?_
  exact add_le_add (add_le_add (abs_worth_le _ (by decide)) (abs_worth_le _ (by decide)))
    (abs_ite_le (by decide) (by decide))

theorem abs_scoreRooks_le (phase : Phase) (passed : Bitboard) :
    |b.scoreRooks phase passed side| ≤ 64 * (64 * 2 + 10 + 10 + 70 + 64 * 40) := by
  have hseventh : |b.seventhRank side| ≤ 20 + 50 :=
    (abs_add_le _ _).trans (add_le_add (abs_ite_le (by decide) (by decide))
      (abs_ite_le (by decide) (by decide)))
  have hopen : ∀ f, |b.openFile side f| ≤ 10 := fun f =>
    abs_ite_le (by decide) (abs_ite_le (by decide) (by decide))
  have hpawn : ∀ sq pp, |rookAndPawn side sq pp| ≤ 15 + 25 := by
    intro sq pp
    cases side <;>
      exact (abs_add_le _ _).trans (add_le_add (abs_ite_le (by decide) (by decide))
        (abs_ite_le (by decide) (by decide)))
  refine abs_scoreOver_le _ fun sq => ?_
  refine (abs_add_le _ _).trans (add_le_add ?_ (abs_scoreOver_le _ (hpawn sq)))
  refine (abs_add_le _ _).trans (add_le_add ?_ (abs_ite_le hseventh (by decide)))
  refine (abs_add_le _ _).trans (add_le_add ?_ (hopen _))
  exact (abs_add_le _ _).trans (add_le_add (abs_worth_le _ (by decide))
    (abs_ite_le (by decide) (by decide)))

theorem abs_scoreQueens_le : |b.scoreQueens side| ≤ 64 * (64 * 1) :=
  abs_scoreOver_le _ fun _ => abs_worth_le _ (by decide)

omit [Build] in
theorem abs_scoreKing_le (phase : Phase) : |b.scoreKing phase side| ≤ 80 + 64 * 8 := by
  unfold scoreKing
  split
  · decide
  · rename_i sq _
    obtain ⟨h1, h2⟩ := abs_kingScores_le sq
    exact (abs_add_le _ _).trans (add_le_add (abs_ite_le h2 h1)
      (abs_ite_le (abs_worth_le _ (by decide)) (by decide)))

theorem abs_scoreDevel_le (phase : Phase) :
    |b.scoreDevel phase side| ≤ 64 * 15 + 64 * 20 + 64 * 25 + 32 := by
  have hcount : ∀ (bb : Bitboard) (x y m : Int), |x| ≤ m → |y| ≤ m →
      |scoreOver bb fun sq => if b.pceMovecnt.get sq = 0#32 then x else y| ≤ 64 * m :=
    fun bb x y m hx hy => abs_scoreOver_le _ fun sq => abs_ite_le hx hy
  unfold scoreDevel
  split
  · decide
  · refine (abs_add_le _ _).trans (add_le_add ?_ (abs_ite_le (by decide) (abs_ite_le (by decide)
      (by decide))))
    refine (abs_add_le _ _).trans (add_le_add ?_ (hcount _ _ _ 25 (by decide) (by decide)))
    exact (abs_add_le _ _).trans (add_le_add (hcount _ _ _ 15 (by decide) (by decide))
      (hcount _ _ _ 20 (by decide) (by decide)))

theorem abs_scoreCombo_le : |b.scoreCombo side| ≤ 64 * (64 * 15 + 64 * 30) := by
  refine abs_scoreOver_le _ fun q => (abs_add_le _ _).trans (add_le_add ?_ ?_)
  · exact abs_scoreOver_le _ fun t => abs_ite_le (by decide) (by decide)
  · exact abs_scoreOver_le _ fun t => abs_ite_le (by decide) (by decide)

omit [Build] in
theorem abs_scoreControl_le : |b.scoreControl side| ≤ 64 * (4 * 8) := by
  unfold scoreControl
  refine (abs_sum_map_le (List.finRange 64) (m := 4 * 8) fun sq _ => ?_).trans ?_
  · obtain ⟨h1, h2⟩ := abs_controlScore_le sq
    have h3 : min (Bitboard.popcnt (b.attackers sq side)) (controlMaxattackers.get sq) ≤ 8 :=
      (min_le_right _ _).trans h2
    rw [abs_mul, abs_of_nonneg (Int.natCast_nonneg _)]
    exact mul_le_mul h1 (by exact_mod_cast h3) (Int.natCast_nonneg _) (by decide)
  · rw [List.length_finRange]
    decide

theorem abs_scorePlugins_le (phase : Phase) (passed : Bitboard) :
    |b.scorePlugins phase passed side| ≤ 600000 := by
  have h1 := b.abs_scoreKnights_le side
  have h2 := b.abs_scoreBishops_le side
  have h3 := b.abs_scoreRooks_le side phase passed
  have h4 := b.abs_scoreQueens_le side
  have h5 := b.abs_scoreKing_le side phase
  have h6 := b.abs_scoreDevel_le side phase
  have h7 := b.abs_scoreCombo_le side
  unfold scorePlugins
  rw [abs_le] at *
  omega

end Plugins

/-- The material of at most 80 men for each side, and its balance. -/
theorem abs_materialBalance_le {ms mxs : Int} (h1 : 0 ≤ ms ∧ ms ≤ 72000) (h2 : 0 ≤ mxs ∧ mxs ≤ 72000) :
    |materialBalance ms mxs| ≤ 82000 := by
  have hnum : |(8192 - (ms + mxs) + 8192 * 8) * (ms - mxs)| ≤ 73728 * 72000 := by
    rw [abs_mul]
    refine mul_le_mul ?_ ?_ (abs_nonneg _) (by decide)
    · rw [abs_le]
      omega
    · rw [abs_le]
      omega
  unfold materialBalance
  generalize (8192 - (ms + mxs) + 8192 * 8) * (ms - mxs) = a at hnum
  rw [Int.abs_eq_natAbs] at hnum ⊢
  rw [Int.natAbs_tdiv]
  show ((a.natAbs / 65536 : Nat) : Int) ≤ 82000
  omega

end HoiChess.Chess.Board
