import HoiChess.Chess.Score

/-!
# What the loop over the pawns adds up

Each pawn has a worth of its own (`pawnWorth`), whatever the order of the loop.  The bonus for
connected passed pawns is different: it goes to a passed pawn exactly if the loop has met a passed
pawn next to it before (`Joins`), and so depends on the order.
-/

namespace HoiChess.Chess.Board

open WordSet

variable (b : Board)

/-- No enemy pawn can stop the pawn. -/
def isPassed (side : Color) (sq : Square) : Bool :=
  !Bitboard.any (passedPawnMask side sq &&& b.pos side.xside .pawn)

/-- What a pawn is worth without regard to the other passed pawns. -/
def pawnWorth (phase : Phase) (side : Color) (sq : Square) : Int :=
  (pawnScores phase).get (sideSquare side sq) +
      (if Bitboard.any (isolatedPawnMask sq &&& b.pos side .pawn) then 0 else -10) +
    if b.isPassed side sq then passedPawn |(sideRank side rank8 : Int) - rnk sq| else 0

/-- A passed pawn with another one next to it that comes earlier in the list. -/
def joins (side : Color) (l : List Square) (sq : Square) : Bool :=
  b.isPassed side sq &&
    (l.takeWhile (fun t => t ≠ sq)).any (fun t => b.isPassed side t && mem (connectedPawnMask sq) t)

/-- How often the loop gives the bonus for connected passed pawns. -/
def connections [Build] (side : Color) : Nat :=
  (squares (b.pos side .pawn)).countP (b.joins side (squares (b.pos side .pawn)))

theorem not_mem_connectedPawnMask (sq : Square) : mem (connectedPawnMask sq) sq = false := by
  unfold connectedPawnMask
  rw [mem_and, mem_not, mem_fileBb]
  simp [fileOf]

/-- The passed pawns among those of a list. -/
def Collects (side : Color) (l : List Square) (bb : Bitboard) : Prop :=
  ∀ t, mem bb t = decide (t ∈ l ∧ b.isPassed side t = true)

variable {b} {side : Color}

theorem Collects.any_connected {l : List Square} {bb : Bitboard} (h : b.Collects side l bb)
    (sq : Square) :
    Bitboard.any (Bitboard.setbit bb sq &&& connectedPawnMask sq) =
      l.any (fun t => b.isPassed side t && mem (connectedPawnMask sq) t) := by
  rw [Bool.eq_iff_iff, any_iff, List.any_eq_true]
  simp only [mem_and, mem_insert, h _, Bool.and_eq_true, Bool.or_eq_true, decide_eq_true_eq]
  constructor
  · rintro ⟨t, (⟨ht, hp⟩ | rfl), hc⟩
    · exact ⟨t, ht, hp, hc⟩
    · rw [not_mem_connectedPawnMask] at hc
      cases hc
  · rintro ⟨t, ht, hp, hc⟩
    exact ⟨t, .inl ⟨ht, hp⟩, hc⟩

theorem takeWhile_before {pre post : List Square} {sq : Square}
    (h : (pre ++ sq :: post).Nodup) : (pre ++ sq :: post).takeWhile (fun t => t ≠ sq) = pre := by
  have hne : ∀ t ∈ pre, decide (t ≠ sq) = true := by
    intro t ht
    rw [decide_eq_true_eq]
    rintro rfl
    exact (List.nodup_append.mp h).2.2 t ht t List.mem_cons_self rfl
  rw [List.takeWhile_append_of_pos hne]
  simp

/-- **One round of the loop.** -/
theorem Collects.step {pre post : List Square} {sq : Square} {st : Int × Bitboard}
    (h : b.Collects side pre st.2) (hl : (pre ++ sq :: post).Nodup) (phase : Phase) :
    (b.scorePawnsStep phase side st sq).1 = st.1 + b.pawnWorth phase side sq +
        (if b.joins side (pre ++ sq :: post) sq then 20 else 0) ∧
      b.Collects side (pre ++ [sq]) (b.scorePawnsStep phase side st sq).2 := by
  have hconn := h.any_connected sq
  have hjoins : b.joins side (pre ++ sq :: post) sq = (b.isPassed side sq &&
      Bitboard.any (Bitboard.setbit st.2 sq &&& connectedPawnMask sq)) := by
    unfold joins
    rw [takeWhile_before hl, hconn]
  unfold scorePawnsStep
  cases hp : b.isPassed side sq with
  | false =>
    have hany : Bitboard.any (passedPawnMask side sq &&& b.pos side.xside .pawn) = true :=
      by simpa [isPassed] using hp
    refine ⟨?_, fun t => ?_⟩
    · rw [hjoins]
      unfold pawnWorth
      simp only [hany, hp, if_true, Bool.false_and, Bool.false_eq_true, if_false]
      split <;> ring
    · simp only [hany, if_true]
      rw [h t, decide_eq_decide, List.mem_append, List.mem_singleton]
      constructor
      · exact fun ⟨h1, h2⟩ => ⟨.inl h1, h2⟩
      · rintro ⟨h1 | rfl, h2⟩
        · exact ⟨h1, h2⟩
        · rw [hp] at h2
          cases h2
  | true =>
    have hany : Bitboard.any (passedPawnMask side sq &&& b.pos side.xside .pawn) = false :=
      by simpa [isPassed] using hp
    refine ⟨?_, fun t => ?_⟩
    · rw [hjoins]
      unfold pawnWorth
      simp only [hany, hp, Bool.true_and, if_true, Bool.false_eq_true, if_false]
      split <;> split <;> ring
    · simp only [hany]
      show mem (Bitboard.setbit st.2 sq) t = _
      rw [mem_insert, h t, ← Bool.decide_or, decide_eq_decide, List.mem_append, List.mem_singleton]
      constructor
      · rintro (⟨h1, h2⟩ | rfl)
        · exact ⟨.inl h1, h2⟩
        · exact ⟨.inr rfl, hp⟩
      · rintro ⟨h1 | rfl, h2⟩
        · exact .inl ⟨h1, h2⟩
        · exact .inr rfl

/-- **The rest of the loop**, after the pawns of `pre`. -/
theorem Collects.loop {pre l : List Square} {st : Int × Bitboard} (h : b.Collects side pre st.2)
    (hl : (pre ++ l).Nodup) (phase : Phase) :
    (l.foldl (b.scorePawnsStep phase side) st).1 = st.1 + (l.map (b.pawnWorth phase side)).sum +
        20 * (l.countP (b.joins side (pre ++ l)) : Int) ∧
      b.Collects side (pre ++ l) (l.foldl (b.scorePawnsStep phase side) st).2 := by
  induction l generalizing pre st with
  | nil => simpa using h
  | cons sq l ih =>
    obtain ⟨h1, h2⟩ := h.step hl phase
    have happ : pre ++ [sq] ++ l = pre ++ sq :: l := by simp
    obtain ⟨h3, h4⟩ := ih h2 (by rwa [happ])
    rw [happ] at h3 h4
    refine ⟨?_, h4⟩
    rw [List.foldl_cons, h3, h1, List.map_cons, List.sum_cons, List.countP_cons]
    split <;> push_cast <;> ring

section Pawns

variable [Build] (b side)

theorem loop_pawns (phase : Phase) :
    (b.scorePawnsLoop phase side).1 = doublePawns (b.pos side .pawn) +
        scoreOver (b.pos side .pawn) (b.pawnWorth phase side) + 20 * (b.connections side : Int) ∧
      b.Collects side (squares (b.pos side .pawn)) (b.scorePawnsLoop phase side).2 := by
  have h : b.Collects side [] ((doublePawns (b.pos side .pawn), nullBitboard) : Int × Bitboard).2 :=
    fun t => by simp
  have hl : ([] ++ squares (b.pos side .pawn)).Nodup := squares_nodup _
  exact h.loop hl phase

theorem scorePawnsLoop_fst (phase : Phase) :
    (b.scorePawnsLoop phase side).1 = doublePawns (b.pos side .pawn) +
      scoreOver (b.pos side .pawn) (b.pawnWorth phase side) + 20 * (b.connections side : Int) :=
  (b.loop_pawns side phase).1

/-- **The passed pawns do not depend on the order of the loop.** -/
theorem mem_scorePawnsLoop (phase : Phase) (t : Square) :
    mem (b.scorePawnsLoop phase side).2 t = (mem (b.pos side .pawn) t && b.isPassed side t) := by
  rw [(b.loop_pawns side phase).2 t, Bool.eq_iff_iff, decide_eq_true_eq, Bool.and_eq_true,
    mem_squares]

end Pawns

end HoiChess.Chess.Board
