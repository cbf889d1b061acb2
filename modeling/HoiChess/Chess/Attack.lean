import HoiChess.Chess.Consistent

/-!
# Attacks on the board

The attack functions of the board, answered from the tables and the rotated
occupancies.  On a consistent board each of them is the corresponding notion
of the rules: `mem_attacks` for the piece lookups, `mem_pawnNoncaptures` for
pawn advances, `isAttacked_iff` and `mem_attackers` for attacks on a square.
-/

namespace HoiChess.Chess

open WordSet Grid

namespace Board

variable (b : Board)

/-- The squares a pawn could capture on, with the en passant square if it is one of them. -/
def pawnCaptures (sq : Square) (c : Color) : Bitboard :=
  let bb := pawnCaptBb c sq &&& b.occupied
  match b.epsq with
  | none => bb
  | some ep => if Bitboard.testbit (pawnCaptBb c sq) ep then Bitboard.setbit bb ep else bb

/-- The offset of one step forward, modulo 64. -/
def pawnDir : Color → Square
  | .white => 8
  | .black => 56

/-- A shift by `from+dir` is taken modulo 64, as the shift instruction does. -/
def pawnNoncaptures (sq : Square) (c : Color) : Bitboard :=
  let bb := nullBitboard
  if !Bitboard.testbit b.occupied (sq + pawnDir c) then
    let bb := Bitboard.setbit bb (sq + pawnDir c)
    if rnk sq = Rules.pawnRank c && !Bitboard.testbit b.occupied (sq + (pawnDir c + pawnDir c)) then
      Bitboard.setbit bb (sq + (pawnDir c + pawnDir c))
    else bb
  else bb

def knightAttacks (sq : Square) : Bitboard := attackBb .knight sq

def bishopAttacks (sq : Square) : Bitboard := atkL45 b.occupiedL45 sq ||| atkR45 b.occupiedR45 sq

def rookAttacks (sq : Square) : Bitboard := atk0 b.occupied sq ||| atkL90 b.occupiedL90 sq

def queenAttacks (sq : Square) : Bitboard := b.bishopAttacks sq ||| b.rookAttacks sq

def kingAttacks (sq : Square) : Bitboard := attackBb .king sq

def isAttacked (dst : Square) (atkside : Color) : Bool :=
  Bitboard.any (b.rookAttacks dst &&& (b.pos atkside .rook ||| b.pos atkside .queen)) ||
  Bitboard.any (b.bishopAttacks dst &&& (b.pos atkside .bishop ||| b.pos atkside .queen)) ||
  Bitboard.any (b.pawnCaptures dst atkside.xside &&& b.pos atkside .pawn) ||
  Bitboard.any (knightAttacks dst &&& b.pos atkside .knight) ||
  Bitboard.any (kingAttacks dst &&& b.pos atkside .king)

def attackers (dst : Square) (atkside : Color) : Bitboard :=
  (b.pawnCaptures dst atkside.xside &&& b.pos atkside .pawn) |||
  (knightAttacks dst &&& b.pos atkside .knight) |||
  (b.bishopAttacks dst &&& b.pos atkside .bishop) |||
  (b.rookAttacks dst &&& b.pos atkside .rook) |||
  (b.queenAttacks dst &&& b.pos atkside .queen) |||
  (kingAttacks dst &&& b.pos atkside .king)

/-- `is_attacked(get_king(c), XSIDE(c))`.  Without a king the square is
`NO_SQUARE` and the tables are read out of bounds; no caller gets there. -/
def kingAttacked (c : Color) : Bool :=
  match b.getKing c with
  | none => false
  | some k => b.isAttacked k c.xside

def inCheck : Bool := b.kingAttacked b.side

/-- The enemy king cannot be captured with the next move. -/
def isLegal : Bool := !b.kingAttacked b.side.xside

/-- `is_valid()`: one king each, no pawn on the first or last rank, and the
opponent's king not in check. -/
def isValid : Bool :=
  Bitboard.popcnt (b.pos .white .king) = 1 && Bitboard.popcnt (b.pos .black .king) = 1 &&
  !Bitboard.any ((b.pos .white .pawn ||| b.pos .black .pawn) &&& (rankBb 0 ||| rankBb 7)) &&
  !b.kingAttacked b.side.xside

/-- The lookup for a piece, as `is_valid_move` switches between them. -/
def attacksOf (p : Piece) (c : Color) (sq : Square) : Bitboard :=
  match p with
  | .pawn => b.pawnCaptures sq c
  | .knight => knightAttacks sq
  | .bishop => b.bishopAttacks sq
  | .rook => b.rookAttacks sq
  | .queen => b.queenAttacks sq
  | .king => kingAttacks sq

end Board

open Rules

/-! ## The lookups follow the rules -/

theorem mem_pawnCaptBb_iff (c : Color) (sq t : Square) :
    mem (pawnCaptBb c sq) t = true ↔ Geometry c .pawn sq t := by
  rw [mem_pawnCaptBb]
  have hal : ¬ Aligned (slideDirs .pawn) sq t := by simp [Aligned, slideDirs]
  unfold Geometry
  cases c <;> simp [pawnCaptDirs, leapDirs, forward, or_comm, hal]

theorem mem_knightTable_iff (c : Color) (sq t : Square) :
    mem (attackBb .knight sq) t = true ↔ Geometry c .knight sq t := by
  rw [mem_knightTable]
  have hal : ¬ Aligned (slideDirs .knight) sq t := by simp [Aligned, slideDirs]
  have hd : ∀ d, d ∈ knightDirs ↔ d ∈ leapDirs c .knight := by
    intro d
    constructor <;> revert d <;> cases c <;> decide
  unfold Geometry
  simp only [hal, or_false, hd]

theorem mem_kingTable_iff (c : Color) (sq t : Square) :
    mem (attackBb .king sq) t = true ↔ Geometry c .king sq t := by
  rw [mem_kingTable]
  have hal : ¬ Aligned (slideDirs .king) sq t := by simp [Aligned, slideDirs]
  unfold Geometry
  simp only [hal, or_false, leapDirs]

/-- A pawn never reaches past a piece, so a leap needs no clear line. -/
theorem mem_reach_leap {man : Placement} {c : Color} {p : Piece} (hp : slideDirs p = [])
    {s t : Square} : t ∈ reach man c p s ↔ Geometry c p s t := by
  have hal : ¬ Aligned (slideDirs p) s t := by simp [Aligned, hp]
  rw [mem_reach]
  constructor
  · exact fun h => h.1
  · intro h
    refine ⟨h, ?_⟩
    obtain ⟨d, hd, h⟩ := h.resolve_right hal
    exact fun u hu => absurd hu (not_between_of_leap hd h)

theorem isAttacked_eq_any (b : Board) (t : Square) (c : Color) :
    b.isAttacked t c = Bitboard.any (b.attackers t c) := by
  rw [Bool.eq_iff_iff]
  unfold Board.isAttacked
  simp only [Bool.or_eq_true, any_iff, ← exists_or]
  refine exists_congr fun s => ?_
  simp only [Board.attackers, Board.queenAttacks, mem_or, mem_and, Bool.or_eq_true,
    Bool.and_eq_true]
  grind only

section

variable [Build] {b : Board} {man : Placement}

theorem mem_bishopAttacks (h : Consistent b man) (c : Color) (sq t : Square) :
    mem (b.bishopAttacks sq) t = true ↔ t ∈ reach man c .bishop sq := by
  rw [mem_reach_iff_slides, Board.bishopAttacks, mem_bishopLookup h.rot]
  simp only [leapDirs, slideDirs, List.not_mem_nil, false_and, exists_false, false_or]
  rfl

theorem mem_rookAttacks (h : Consistent b man) (c : Color) (sq t : Square) :
    mem (b.rookAttacks sq) t = true ↔ t ∈ reach man c .rook sq := by
  rw [mem_reach_iff_slides, Board.rookAttacks, mem_rookLookup h.rot]
  simp only [leapDirs, slideDirs, List.not_mem_nil, false_and, exists_false, false_or]
  rfl

theorem mem_queenAttacks (h : Consistent b man) (c : Color) (sq t : Square) :
    mem (b.queenAttacks sq) t = true ↔ t ∈ reach man c .queen sq := by
  rw [Board.queenAttacks, mem_or, Bool.or_eq_true, mem_bishopAttacks h c, mem_rookAttacks h c]
  simp only [mem_reach_iff_slides, leapDirs, slideDirs, List.not_mem_nil, false_and, exists_false,
    false_or, Slides, mem_kingDirs]
  constructor
  · rintro (⟨d, hd, h⟩ | ⟨d, hd, h⟩)
    · exact ⟨d, Or.inr hd, h⟩
    · exact ⟨d, Or.inl hd, h⟩
  · rintro ⟨d, hd | hd, h⟩
    · exact Or.inr ⟨d, hd, h⟩
    · exact Or.inl ⟨d, hd, h⟩

/-- The pawn lookup adds the en passant square and leaves out empty squares. -/
theorem mem_pawnCaptures (h : Consistent b man) (c : Color) (sq t : Square) :
    mem (b.pawnCaptures sq c) t = true ↔
      t ∈ reach man c .pawn sq ∧ (man t ≠ none ∨ b.epsq = some t) := by
  rw [mem_reach_leap rfl, ← mem_pawnCaptBb_iff]
  have hocc : mem b.occupied t = true ↔ man t ≠ none := by
    rw [h.occ_eq, Option.isSome_iff_ne_none]
  unfold Board.pawnCaptures
  cases hep : b.epsq with
  | none => simp [hocc]
  | some ep =>
    simp only [Option.some.injEq]
    split
    · rename_i hmem
      rw [mem_insert, mem_and, Bool.or_eq_true, Bool.and_eq_true, hocc, decide_eq_true_iff]
      constructor
      · rintro (⟨h1, h2⟩ | rfl)
        · exact ⟨h1, Or.inl h2⟩
        · exact ⟨hmem, Or.inr rfl⟩
      · rintro ⟨h1, h2 | rfl⟩
        · exact Or.inl ⟨h1, h2⟩
        · exact Or.inr rfl
    · rename_i hmem
      rw [mem_and, Bool.and_eq_true, hocc]
      constructor
      · rintro ⟨h1, h2⟩
        exact ⟨h1, Or.inl h2⟩
      · rintro ⟨h1, h2 | rfl⟩
        · exact ⟨h1, h2⟩
        · exact absurd h1 hmem

/-- **The lookups of all pieces but pawns are the rules' `reach`.** -/
theorem mem_attacksOf (h : Consistent b man) {p : Piece} (hp : p ≠ .pawn) (c : Color) (sq t : Square) :
    mem (b.attacksOf p c sq) t = true ↔ t ∈ reach man c p sq := by
  cases p with
  | pawn => exact absurd rfl hp
  | knight => rw [mem_reach_leap rfl]; exact mem_knightTable_iff c sq t
  | bishop => exact mem_bishopAttacks h c sq t
  | rook => exact mem_rookAttacks h c sq t
  | queen => exact mem_queenAttacks h c sq t
  | king => rw [mem_reach_leap rfl]; exact mem_kingTable_iff c sq t

/-- A lookup from `t` finds the pieces that attack `t`: attacks are symmetric,
and a square with a piece on it is not the en passant square's concern. -/
theorem attacksOf_and_pos (h : Consistent b man) (c : Color) (p : Piece) (s t : Square) :
    mem (b.attacksOf p c.xside t &&& b.pos c p) s = true ↔
      man s = some (c, p) ∧ t ∈ reach man c p s := by
  rw [mem_and, Bool.and_eq_true, h.mem_pos, and_comm, mem_reach_comm (c := c)]
  refine and_congr_right fun hs => ?_
  by_cases hp : p = .pawn
  · subst hp
    exact (mem_pawnCaptures h c.xside t s).trans (and_iff_left (Or.inl (by simp [hs])))
  · exact mem_attacksOf h hp c.xside t s

/-- **`attackers` finds the men that attack a square by the rules.** -/
theorem mem_attackers (h : Consistent b man) (c : Color) (s t : Square) :
    mem (b.attackers t c) s = true ↔ ∃ p, man s = some (c, p) ∧ t ∈ reach man c p s := by
  have key := fun p => attacksOf_and_pos h c p s t
  unfold Board.attackers
  simp only [mem_or, Bool.or_eq_true]
  constructor
  · rintro (((((h | h) | h) | h) | h) | h)
    · exact ⟨_, (key .pawn).mp h⟩
    · exact ⟨_, (key .knight).mp h⟩
    · exact ⟨_, (key .bishop).mp h⟩
    · exact ⟨_, (key .rook).mp h⟩
    · exact ⟨_, (key .queen).mp h⟩
    · exact ⟨_, (key .king).mp h⟩
  · rintro ⟨p, hp⟩
    have hm := (key p).mpr hp
    cases p with
    | pawn => exact Or.inl (Or.inl (Or.inl (Or.inl (Or.inl hm))))
    | knight => exact Or.inl (Or.inl (Or.inl (Or.inl (Or.inr hm))))
    | bishop => exact Or.inl (Or.inl (Or.inl (Or.inr hm)))
    | rook => exact Or.inl (Or.inl (Or.inr hm))
    | queen => exact Or.inl (Or.inr hm)
    | king => exact Or.inr hm

/-- **`is_attacked` is the rules' notion.** -/
theorem isAttacked_iff (h : Consistent b man) (t : Square) (c : Color) :
    b.isAttacked t c = true ↔ Attacked man c t := by
  rw [isAttacked_eq_any, any_iff, Attacked]
  exact exists_congr fun s => mem_attackers h c s t

end

/-! ## The lookups walk along the lines -/

theorem slides_iff_walk {dirs : List Dir} (hdirs : ∀ d ∈ dirs, d ∈ kingDirs) {occ : Square → Bool}
    {s t : Square} : Slides dirs occ s t ↔ ∃ d ∈ dirs, t ∈ walk occ d 7 s := by
  constructor
  · rintro ⟨d, hd, h⟩
    exact ⟨d, hd, (mem_walk_seven (hdirs d hd)).mpr h⟩
  · rintro ⟨d, hd, h⟩
    exact ⟨d, hd, (mem_walk_seven (hdirs d hd)).mp h⟩

/-- **The rotated lookups are walks**, for every set of occupied squares, whether or not men stand
there: along rank and file for the rook and along the diagonals for the bishop, up to the first
square of the set. -/
theorem mem_lookups_iff_walk {b : Board} {occ : Bitboard}
    (h : Rotations (mem occ) b.occupied b.occupiedL90 b.occupiedL45 b.occupiedR45) (sq t : Square) :
    (mem (b.rookAttacks sq) t = true ↔ ∃ d ∈ rookDirs, t ∈ walk (mem occ) d 7 sq) ∧
      (mem (b.bishopAttacks sq) t = true ↔ ∃ d ∈ bishopDirs, t ∈ walk (mem occ) d 7 sq) := by
  constructor
  · rw [Board.rookAttacks, mem_rookLookup h]
    exact slides_iff_walk fun d hd => mem_kingDirs.mpr (Or.inl hd)
  · rw [Board.bishopAttacks, mem_bishopLookup h]
    exact slides_iff_walk fun d hd => mem_kingDirs.mpr (Or.inr hd)

/-- The square e7 alone is occupied: a rook on e4 gets there, but no further. -/
theorem lookups_walk_to_e7 : ∃ b : Board,
    Rotations (mem (1#64 <<< 52)) b.occupied b.occupiedL90 b.occupiedL45 b.occupiedR45 ∧
      (mem (b.rookAttacks 28) 52 = true ↔ ∃ d ∈ rookDirs, 52 ∈ walk (mem (1#64 <<< 52)) d 7 28) ∧
      (mem (b.rookAttacks 28) 60 = true ↔ ∃ d ∈ rookDirs, 60 ∈ walk (mem (1#64 <<< 52)) d 7 28) := by
  let b : Board := { Board.clear with
    occupied := Bitboard.setbit nullBitboard 52
    occupiedL90 := Bitboard.setbit nullBitboard (mapL90 52)
    occupiedL45 := Bitboard.setbit nullBitboard (mapL45 52)
    occupiedR45 := Bitboard.setbit nullBitboard (mapR45 52) }
  have hrot : Rotations (mem (1#64 <<< 52)) b.occupied b.occupiedL90 b.occupiedL45 b.occupiedR45 :=
    ⟨by decide +kernel, by decide +kernel, by decide +kernel, by decide +kernel⟩
  exact ⟨b, hrot, (mem_lookups_iff_walk hrot 28 52).1, (mem_lookups_iff_walk hrot 28 60).1⟩

/-! ## Pawn advances -/

theorem step_forward (c : Color) (sq : Square) (h : rnk sq ≠ lastRank c) :
    step sq (forward c) = some (sq + Board.pawnDir c) := by
  revert h
  revert sq c
  decide

theorem pawnRank_ne_lastRank (c : Color) : pawnRank c ≠ lastRank c := by cases c <;> decide

theorem step_forward_twice (c : Color) (sq : Square) (h : rnk sq = pawnRank c) :
    step (sq + Board.pawnDir c) (forward c) = some (sq + (Board.pawnDir c + Board.pawnDir c)) := by
  revert h
  revert sq c
  decide

theorem mem_pawnNoncaptures [Build] {b : Board} {man : Placement} (h : Consistent b man) (c : Color)
    {sq : Square} (hr : rnk sq ≠ lastRank c) (t : Square) :
    mem (b.pawnNoncaptures sq c) t = true ↔ t ∈ pushes man c sq := by
  unfold Board.pawnNoncaptures pushes
  rw [step_forward c sq hr]
  simp only [Bitboard.testbit, h.occ_eq, Rules.occupied]
  by_cases h1 : (man (sq + Board.pawnDir c)).isSome = true
  · simp [h1]
  · by_cases h2 : rnk sq = pawnRank c
    · rw [step_forward_twice c sq h2]
      by_cases h3 : (man (sq + (Board.pawnDir c + Board.pawnDir c))).isSome = true
      · simp [h1, h2, h3, eq_comm (a := t)]
        rintro rfl hn
        simp [hn] at h3
      · have hn : man (sq + (Board.pawnDir c + Board.pawnDir c)) = none := by simpa using h3
        simp only [h1, h2, h3, Option.toList_some, List.filter_cons, List.filter_nil]
        simp [eq_comm (a := t)]
    · simp [h1, h2, eq_comm (a := t)]

end HoiChess.Chess
