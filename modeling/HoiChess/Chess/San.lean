import HoiChess.Chess.Generate

/-!
# Printing moves

`str` prints a move in coordinates, `san` in standard algebraic notation, with
five relaxed forms.  `san` names the origin as far as the other legal moves of
like men to the same square make it necessary.  `parse_move` compares its text
with every form of every legal move.
-/

namespace HoiChess.Chess

open Rules

/-- `piece_char` -/
def pieceLetter : Piece → Char
  | .pawn => 'P'
  | .knight => 'N'
  | .bishop => 'B'
  | .rook => 'R'
  | .queen => 'Q'
  | .king => 'K'

/-- `file_char` -/
def fileLetter (f : Fin 8) : Char := ['a', 'b', 'c', 'd', 'e', 'f', 'g', 'h'].get f

/-- `rank_char` -/
def rankLetter (r : Fin 8) : Char := ['1', '2', '3', '4', '5', '6', '7', '8'].get r

/-- `FIL(sq)` and `RNK(sq)` as indices. -/
def filIdx (sq : Square) : Fin 8 := ⟨fil sq, fil_lt sq⟩

def rnkIdx (sq : Square) : Fin 8 := ⟨rnk sq, rnk_lt sq⟩

/-- `square_str` -/
def squareStr (sq : Square) : List Char := [fileLetter (filIdx sq), rankLetter (rnkIdx sq)]

@[simp] theorem mkSquare_rnkIdx_filIdx (sq : Square) : mkSquare (rnkIdx sq) (filIdx sq) = sq :=
  Fin.ext (square_val sq).symm

namespace Move

section Print

variable (mov : Move)

/-- `str()` -/
def str : List Char :=
  squareStr mov.fromSq ++ squareStr mov.toSq ++
    if mov.isPromotion then (mov.promoteTo.map (fun p => (pieceLetter p).toLower)).toList else []

variable [Build] (b : Board) (nonstd : Nat)

/-- The legal moves of like men to the same square that the ambiguity check looks at. -/
def rivals : List Move :=
  b.legalMoves.moves.filter fun m =>
    m.ptype = mov.ptype && m.toSq = mov.toSq && m.fromSq ≠ mov.fromSq

/-- `disamb_file` -/
def disambFile : Bool :=
  ((mov.rivals b).any fun m => fil m.fromSq ≠ fil mov.fromSq) || nonstd = 3 || nonstd = 5

/-- `disamb_rank` -/
def disambRank : Bool :=
  ((mov.rivals b).any fun m => fil m.fromSq = fil mov.fromSq && rnk m.fromSq ≠ rnk mov.fromSq) ||
    nonstd = 4 || nonstd = 5

/-- What `san` writes before the capture mark. -/
def sanHead : List Char :=
  if mov.isCastle then if fil mov.toSq = 2 then "O-O-O".toList else "O-O".toList
  else if mov.ptype = some .pawn then
    if mov.isCapture || mov.isEnpassant then [fileLetter (filIdx mov.fromSq)] else []
  else
    (mov.ptype.map pieceLetter).toList ++
      (if mov.disambFile b nonstd then [fileLetter (filIdx mov.fromSq)] else []) ++
      (if mov.disambRank b nonstd then [rankLetter (rnkIdx mov.fromSq)] else [])

/-- The mark for check or checkmate. -/
def sanCheck : List Char :=
  if nonstd = 1 then []
  else if (b.makeMove mov).inCheck then if (b.makeMove mov).isMate then ['#'] else ['+']
  else []

/-- `san(board, nonstd)` -/
def san : List Char :=
  mov.sanHead b nonstd ++
    (if (mov.isCapture || mov.isEnpassant) && nonstd ≠ 2 then ['x'] else []) ++
    (if mov.isCastle then [] else squareStr mov.toSq) ++
    (if mov.isPromotion then '=' :: (mov.promoteTo.map pieceLetter).toList else []) ++
    mov.sanCheck b nonstd

end Print

end Move

/-- `parse_move(str, pseudolegal)` -/
def Board.parseMove [Build] (b : Board) (s : List Char) (pseudolegal : Bool) : Move :=
  let moves := if pseudolegal then b.generateMoves true .empty else b.legalMoves
  (moves.moves.find? fun mov =>
    s = mov.str || s = mov.san b 0 || [1, 2, 3, 4, 5].any fun j => s = mov.san b j).getD .noMove

/-! ## What is printed of a move of the rules -/

/-- A move in SAN without its check mark. -/
inductive SanText where
  | castle (long : Bool)
  | pawn (f : Option (Fin 8)) (capture : Bool) (dst : Square) (promo : Option Piece)
  | piece (p : Piece) (f r : Option (Fin 8)) (capture : Bool) (dst : Square)

/-- What is said of a promotion. -/
def promoChars : Option Piece → List Char
  | some p => ['=', pieceLetter p]
  | none => []

/-- The characters. -/
def SanText.chars : SanText → List Char
  | castle long => if long then "O-O-O".toList else "O-O".toList
  | pawn f capture dst promo =>
    (f.map fileLetter).toList ++ (if capture then ['x'] else []) ++ squareStr dst ++ promoChars promo
  | piece p f r capture dst =>
    pieceLetter p :: (f.map fileLetter).toList ++ (r.map rankLetter).toList ++
      (if capture then ['x'] else []) ++ squareStr dst

namespace Rules.Ply

/-- The new piece of a promotion. -/
def promoted : Ply → Option Piece
  | promote _ _ p _ => some p
  | _ => none

theorem fil_kingDest (f : CastleFlag) : fil f.kingDest = 2 ↔ f = .wq ∨ f = .bq := by
  cases f <;> decide

theorem str_encode (ply : Ply) :
    ply.encode.str = squareStr ply.src ++ squareStr ply.dst ++
      (ply.promoted.map (fun p => (pieceLetter p).toLower)).toList := by
  unfold Move.str
  simp only [fromSq_encode, toSq_encode, isPromotion_encode, promoteTo_encode]
  cases ply <;> rfl

/-- The long castling of Black. -/
example : (castle .bq).encode.str = "e8c8".toList := by decide +kernel

section Print

variable [Build] (ply : Ply) (b : Board) (nonstd : Nat)

/-- What `san` says about a move. -/
def sanText : SanText :=
  match ply with
  | castle f => .castle (f = .wq ∨ f = .bq)
  | move src dst p cap =>
    if p = .pawn then
      .pawn (if cap.isSome then some (filIdx src) else none) (cap.isSome && nonstd ≠ 2) dst none
    else
      .piece p (if ply.encode.disambFile b nonstd then some (filIdx src) else none)
        (if ply.encode.disambRank b nonstd then some (rnkIdx src) else none)
        (cap.isSome && nonstd ≠ 2) dst
  | promote src dst p cap =>
    .pawn (if cap.isSome then some (filIdx src) else none) (cap.isSome && nonstd ≠ 2) dst (some p)
  | enpassant src dst => .pawn (some (filIdx src)) (nonstd ≠ 2) dst none

/-- **What is printed of a move of the rules.** -/
theorem san_encode :
    ply.encode.san b nonstd = (ply.sanText b nonstd).chars ++ ply.encode.sanCheck b nonstd := by
  unfold Move.san Move.sanHead
  simp only [isCastle_encode, ptype_encode, isCapture_encode, isEnpassant_encode, fromSq_encode,
    toSq_encode, isPromotion_encode, promoteTo_encode]
  refine congrArg (· ++ _) ?_
  cases ply with
  | castle f =>
    simp [isCastling, isPromote, sanText, SanText.chars, captured, isEp, dst, fil_kingDest]
  | move src dst p cap =>
    by_cases hp : p = .pawn
    · subst hp
      cases cap <;>
        simp [isCastling, isPromote, sanText, SanText.chars, promoChars, captured, isEp, piece, Ply.dst,
          Ply.src]
    · cases cap <;>
        simp [isCastling, isPromote, sanText, SanText.chars, captured, isEp, piece, Ply.dst, Ply.src, hp,
          apply_ite (Option.map fileLetter), apply_ite (Option.map rankLetter),
          apply_ite Option.toList]
  | promote src dst p cap =>
    cases cap <;>
      simp [isCastling, isPromote, sanText, SanText.chars, promoChars, captured, isEp, piece, Ply.dst,
        Ply.src,
        codedPiece]
  | enpassant src dst =>
    simp [isCastling, isPromote, sanText, SanText.chars, promoChars, captured, isEp, piece, Ply.dst, Ply.src]

end Print

end Rules.Ply

end HoiChess.Chess
