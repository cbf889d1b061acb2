import HoiChess.Chess.Attack

/-!
# The scoring plugins

What the plugins of the chess evaluation compute from a board, for one side.  A loop over the
bits of a board adds up what each square contributes (`scoreOver`), in scanning order; the
loop over the pawns also collects the passed pawns, and looks at those it has met so far
(`scorePawnsLoop`).
-/

namespace HoiChess.Chess

open WordSet

/-- `OPENING`, `MIDGAME` and `ENDGAME` -/
inductive Phase where
  | opening | midgame | endgame
  deriving DecidableEq, Repr

def materialBalance (ms mxs : Int) : Int :=
  ((8192 - (ms + mxs) + 8192 * 8) * (ms - mxs)).tdiv (8192 * 8)

def getPhase (b : Board) : Phase :=
  let mat := b.material.get .white + b.material.get .black
  if mat > 7000 then .opening else if mat > 3200 then .midgame else .endgame

/-! ## Tables -/

def pawnScoresOpening : Vector Int 64 := #v[
    0,  0,  0,  0,  0,  0,  0,  0,
    8,  5,  8,-10,-15,  8,  5,  8,
   -5,  5,  0, -8, -8,  0,  5, -5,
   -5, -5, -5, 24, 32, -5, -5, -5,
    0,  0,  0, 12, 12,  0,  0,  0,
    0,  0,  8,  8,  8,  8,  0,  0,
    0,  8,  8,  8,  8,  8,  8,  0,
    0,  0,  0,  0,  0,  0,  0,  0]

def pawnScoresMidgame : Vector Int 64 := #v[
    0,  0,  0,  0,  0,  0,  0,  0,
    5,  5,  4,-25,-25,  4,  5,  5,
    0,  0,  0,-10,-10,  0,  0,  0,
    0,  0,  0, 32, 32,  0,  0,  0,
    0,  0,  0, 12, 12,  0,  0,  0,
    0,  0,  8,  8,  8,  8,  0,  0,
    0,  8,  8,  8,  8,  8,  8,  0,
    0,  0,  0,  0,  0,  0,  0,  0]

def pawnScoresEndgame : Vector Int 64 := #v[
    0,  0,  0,  0,  0,  0,  0,  0,
    0,  0,  0,  0,  0,  0,  0,  0,
    2,  2,  2,  2,  2,  2,  2,  2,
    4,  4,  4,  4,  4,  4,  4,  4,
    8,  8,  8,  8,  8,  8,  8,  8,
   12, 12, 12, 12, 12, 12, 12, 12,
   16, 16, 16, 16, 16, 16, 16, 16,
    0,  0,  0,  0,  0,  0,  0,  0]

def knightScores : Vector Int 64 := #v[
  -15, -5, -5, -5, -5, -5, -5,-15,
   -5,  0,  0,  0,  0,  0,  0, -5,
   -5,  0,  5,  5,  5,  5,  0, -5,
   -5,  0,  5, 10, 10,  5,  0, -5,
   -5,  0,  5, 10, 10,  5,  0, -5,
   -5,  0,  5,  5,  5,  5,  0, -5,
   -5,  0,  0,  0,  0,  0,  0, -5,
  -15, -5, -5, -5, -5, -5, -5,-15]

def kingScores : Vector Int 64 := #v[
   12, 12, 10,  0,  0, 10, 16, 16,
    0,-70,-70,-70,-70,-70,-70,  0,
    0,-70,-75,-75,-75,-75,-70,  0,
    0,-70,-75,-80,-80,-75,-70,  0,
    0,-70,-75,-80,-80,-75,-70,  0,
    0,-70,-75,-75,-75,-75,-70,  0,
    0,-70,-70,-70,-70,-70,-70,  0,
   12, 12, 10,  0,  0, 10, 16, 16]

def kingScoresEndgame : Vector Int 64 := #v[
    0,  0,  0,  0,  0,  0,  0,  0,
    0,  5,  5,  5,  5,  5,  5,  0,
    0,  5, 15, 15, 15, 15,  5,  0,
    0,  5, 15, 20, 20, 15,  5,  0,
    0,  5, 15, 20, 20, 15,  5,  0,
    0,  5, 15, 15, 15, 15,  5,  0,
    0,  5,  5,  5,  5,  5,  5,  0,
    0,  0,  0,  0,  0,  0,  0,  0]

def controlScore : Vector Int 64 := #v[
    1,  1,  1,  1,  1,  1,  1,  1,
    1,  2,  2,  2,  2,  2,  2,  1,
    1,  2,  3,  3,  3,  3,  2,  1,
    1,  2,  3,  4,  4,  3,  2,  1,
    1,  2,  3,  4,  4,  3,  2,  1,
    1,  2,  3,  3,  3,  3,  2,  1,
    1,  2,  2,  2,  2,  2,  2,  1,
    1,  1,  1,  1,  1,  1,  1,  1]

def controlMaxattackers : Vector Nat 64 := #v[
    5,  5,  5,  5,  5,  5,  5,  5,
    5,  5,  5,  5,  5,  5,  5,  5,
    5,  5,  7,  7,  7,  7,  5,  5,
    5,  5,  7,  8,  8,  7,  5,  5,
    5,  5,  7,  8,  8,  7,  5,  5,
    5,  5,  7,  7,  7,  7,  5,  5,
    5,  5,  5,  5,  5,  5,  5,  5,
    5,  5,  5,  5,  5,  5,  5,  5]

/-! ## Squares and masks as a side sees them -/

/-- `SQUARE(XRNK(RNK(sq)),FIL(sq))` -/
def xsquare (sq : Square) : Square :=
  mkSquare ⟨7 - rnk sq, by have := rnk_lt sq; omega⟩ ⟨fil sq, fil_lt sq⟩

/-- `idx`: the square as White would see it. -/
def sideSquare (side : Color) (sq : Square) : Square :=
  match side with
  | .white => sq
  | .black => xsquare sq

/-- The rank that is rank `r` for White, as counted by `side`. -/
def sideRank (side : Color) (r : Nat) : Nat :=
  match side with
  | .white => r
  | .black => 7 - r

theorem sideRank_rank7_lt (side : Color) : sideRank side rank7 < 8 := by
  cases side <;> decide

def fileOf (sq : Square) : Fin 8 := ⟨fil sq, fil_lt sq⟩

/-- The square of `file` `f` and its two neighbours on rank `r`. -/
def setNear (f : Fin 8) (bb : Bitboard) (r : Fin 8) : Bitboard :=
  let bb := Bitboard.setbit bb (mkSquare r f)
  let bb := if h : 0 < f.val then Bitboard.setbit bb (mkSquare r ⟨f.val - 1, by omega⟩) else bb
  if h : f.val < 7 then Bitboard.setbit bb (mkSquare r ⟨f.val + 1, by omega⟩) else bb

/-- `passed_pawn_mask[side][sq]` -/
def passedPawnMask (side : Color) (sq : Square) : Bitboard :=
  let ranks := match side with
    | .white => (List.finRange 8).filter (fun r : Fin 8 => rnk sq < r.val)
    | .black => ((List.finRange 8).filter (fun r : Fin 8 => r.val < rnk sq)).reverse
  ranks.foldl (setNear (fileOf sq)) nullBitboard

/-- `isolated_pawn_mask[sq]` -/
def isolatedPawnMask (sq : Square) : Bitboard :=
  let f := fileOf sq
  let bb := fileBb f
  let bb := if h : 0 < f.val then bb ||| fileBb ⟨f.val - 1, by omega⟩ else bb
  if h : f.val < 7 then bb ||| fileBb ⟨f.val + 1, by omega⟩ else bb

/-- `connected_pawn_mask[sq]` -/
def connectedPawnMask (sq : Square) : Bitboard := attackBb .king sq &&& ~~~ fileBb (fileOf sq)

/-- `kingmask[side]` of `score_king` -/
def kingmask : Color → Bitboard
  | .white => 0x00000000000000e7#64
  | .black => 0xe700000000000000#64

/-- `pawnmask[side]` of `score_king` -/
def pawnmask : Color → Bitboard
  | .white => 0x000000000000e700#64
  | .black => 0x00e7000000000000#64

/-! ## The plugins -/

namespace Board

variable [Build] (b : Board)

/-- `while (bb) { sq = bb.firstbit(); bb.clearbit(sq); score += ..; }` -/
def scoreOver (bb : Bitboard) (f : Square → Int) : Int := ((squares bb).map f).sum

/-- What a count of squares is worth. -/
def worth (bb : Bitboard) (w : Int) : Int := Bitboard.popcnt bb * w

section Pawns

def pawnScores : Phase → Vector Int 64
  | .opening => pawnScoresOpening
  | .midgame => pawnScoresMidgame
  | .endgame => pawnScoresEndgame

/-- `EVAL_PASSEDPAWN(dist)` -/
def passedPawn (dist : Int) : Int := 25 + (80 : Int).tdiv dist

/-- `EVAL_DOUBLEPAWNS` for every file with more than one pawn. -/
def doublePawns (pawns : Bitboard) : Int :=
  ((List.finRange 8).map fun f => if Bitboard.popcnt (pawns &&& fileBb f) > 1 then -5 else 0).sum

/-- One round of the loop over the pawns: the score and `passed_pawns[side]` so far. -/
def scorePawnsStep (phase : Phase) (side : Color) (st : Int × Bitboard) (sq : Square) : Int × Bitboard :=
  let score := st.1 + (pawnScores phase).get (sideSquare side sq)
  let score :=
    if Bitboard.any (isolatedPawnMask sq &&& b.pos side .pawn) then score else score - 10
  if Bitboard.any (passedPawnMask side sq &&& b.pos side.xside .pawn) then (score, st.2)
  else
    let passed := Bitboard.setbit st.2 sq
    let dist : Int := |(sideRank side rank8 : Int) - rnk sq|
    let score := score + passedPawn dist
    let score := if Bitboard.any (passed &&& connectedPawnMask sq) then score + 20 else score
    (score, passed)

def scorePawnsLoop (phase : Phase) (side : Color) : Int × Bitboard :=
  (squares (b.pos side .pawn)).foldl (b.scorePawnsStep phase side)
    (doublePawns (b.pos side .pawn), nullBitboard)

end Pawns

def scoreKnights (side : Color) : Int :=
  scoreOver (b.pos side .knight) fun sq =>
    knightScores.get sq + worth (knightAttacks sq &&& ~~~ b.getPieces side) 2

def scoreBishops (side : Color) : Int :=
  scoreOver (b.pos side .bishop) fun sq =>
    worth (b.bishopAttacks sq &&& ~~~ b.getPieces side) 2 +
      worth (b.pawnCaptures sq side.xside &&& b.pos side .pawn) 25 +
      if rnk sq = sideRank side rank2 ∧ (fil sq = 1 ∨ fil sq = 6) then 15 else 0

/-- The bonus for a rook on an open or a half-open file. -/
def openFile (side : Color) (f : Fin 8) : Int :=
  if Bitboard.any (fileBb f &&& b.pos side .pawn) then 0
  else if Bitboard.any (fileBb f &&& b.pos side.xside .pawn) then 5
  else 10

/-- The bonus for a rook on the seventh rank.  `RNK(NO_SQUARE)` is 0. -/
def seventhRank (side : Color) : Int :=
  (if Bitboard.any (b.pos side.xside .pawn &&&
      rankBb ⟨sideRank side rank7, sideRank_rank7_lt side⟩) then 20 else 0) +
    if ((b.getKing side.xside).map rnk).getD 0 = sideRank side rank8 then 50 else 0

/-- A rook behind or in front of a passed pawn. -/
def rookAndPawn (side : Color) (sq pp : Square) : Int :=
  match side with
  | .white => (if rnk sq > rnk pp then -15 else 0) + if rnk sq < rnk pp then 25 else 0
  | .black => (if rnk sq < rnk pp then -15 else 0) + if rnk sq > rnk pp then 25 else 0

def scoreRooks (phase : Phase) (passed : Bitboard) (side : Color) : Int :=
  scoreOver (b.pos side .rook) fun sq =>
    worth (b.rookAttacks sq &&& ~~~ b.getPieces side) 2 +
      (if phase ≠ .endgame ∧ rnk sq ≠ sideRank side rank1 then -10 else 0) +
      b.openFile side (fileOf sq) +
      (if phase ≠ .endgame ∧ rnk sq = sideRank side rank7 then b.seventhRank side else 0) +
      scoreOver (passed &&& fileBb (fileOf sq)) (rookAndPawn side sq)

def scoreQueens (side : Color) : Int :=
  scoreOver (b.pos side .queen) fun sq => worth (b.queenAttacks sq &&& ~~~ b.getPieces side) 1

/-- Without a king the tables would be read at `NO_SQUARE`; no caller gets there. -/
def scoreKing (phase : Phase) (side : Color) : Int :=
  match b.getKing side with
  | none => 0
  | some kingsq =>
    (if phase = .endgame then kingScoresEndgame.get kingsq else kingScores.get kingsq) +
      if phase ≠ .endgame ∧ Bitboard.any (b.pos side .king &&& kingmask side) then
        worth (kingAttacks kingsq &&& pawnmask side &&& b.pos side .pawn) 8
      else 0

/-- `flags & (side == WHITE ? WCASTLE : BCASTLE)` -/
def canCastle (side : Color) : Bool :=
  match side with
  | .white => b.hasFlag .wk || b.hasFlag .wq
  | .black => b.hasFlag .bk || b.hasFlag .bq

def scoreDevel (phase : Phase) (side : Color) : Int :=
  if phase ≠ .opening then 0
  else
    scoreOver (b.pos side .knight ||| b.pos side .bishop)
        (fun sq => if b.pceMovecnt.get sq = 0#32 then -15 else 0) +
      scoreOver (b.pos side .rook) (fun sq => if b.pceMovecnt.get sq = 0#32 then 0 else -20) +
      scoreOver (b.pos side .queen) (fun sq => if b.pceMovecnt.get sq = 0#32 then 0 else -25) +
      if b.hasCastled.get side then 32 else if b.canCastle side then 16 else 0

def scoreCombo (side : Color) : Int :=
  scoreOver (b.pos side .queen) fun q =>
    scoreOver (b.bishopAttacks q &&& b.pos side .bishop)
        (fun t => if Bitboard.any (b.occupied &&& rayBb q t) then 0 else 15) +
      scoreOver (b.rookAttacks q &&& b.pos side .rook)
        (fun t => if Bitboard.any (b.occupied &&& rayBb q t) then 0 else 30)

def scoreControl (side : Color) : Int :=
  ((List.finRange 64).map fun sq =>
    controlScore.get sq *
      (min (Bitboard.popcnt (b.attackers sq side)) (controlMaxattackers.get sq) : Nat)).sum

/-- What the plugins of phase 1 other than the pawns give, with the passed pawns of the side. -/
def scorePlugins (phase : Phase) (passed : Bitboard) (side : Color) : Int :=
  b.scoreKnights side + b.scoreBishops side + b.scoreRooks phase passed side +
    b.scoreQueens side + b.scoreKing phase side + b.scoreDevel phase side + b.scoreCombo side

end Board

end HoiChess.Chess
