import HoiChess.Chess.Move
import HoiChess.Chess.Rotated

/-!
# The board and its basic operations

The board keeps the placement of the pieces in many redundant forms, and
`makeMove` updates all of them incrementally.  The piece part of a move is
the list `moveOps` of calls of `place_piece`, `remove_piece` and
`move_piece`; `PieceOp.Ok` is what these calls assert about the board.
-/

namespace HoiChess.Chess

/-- `WKCASTLE`, `WQCASTLE`, `BKCASTLE`, `BQCASTLE` -/
def CastleFlag.mask : CastleFlag → BitVec 32
  | .wk => 0x01#32
  | .wq => 0x02#32
  | .bk => 0x04#32
  | .bq => 0x08#32

structure Board where
  side : Color
  moveno : Int
  movecnt50 : Int
  position : PerColor (PerPiece Bitboard)
  positionAll : PerColor Bitboard
  occupied : Bitboard
  occupiedL90 : Bitboard
  occupiedL45 : Bitboard
  occupiedR45 : Bitboard
  king : PerColor (Option Square)
  flags : BitVec 32
  epsq : Option Square
  material : PerColor Int
  hasCastled : PerColor Bool
  pceMovecnt : Vector (BitVec 32) 64
  hashkey : Hashkey
  pawnhashkey : Hashkey
  deriving DecidableEq

namespace Board

/-- The board after `clear()`. -/
def clear : Board where
  side := .white
  moveno := 1
  movecnt50 := 0
  position := .both (.all nullBitboard)
  positionAll := .both nullBitboard
  occupied := nullBitboard
  occupiedL90 := nullBitboard
  occupiedL45 := nullBitboard
  occupiedR45 := nullBitboard
  king := .both none
  flags := 0#32
  epsq := none
  material := .both 0
  hasCastled := .both false
  pceMovecnt := Vector.replicate 64 0#32
  hashkey := 0#64
  pawnhashkey := 0#64

variable (b : Board)

/-- `position[side][ptype]` -/
abbrev pos (c : Color) (p : Piece) : Bitboard := (b.position.get c).get p

/-- `get_pieces(side)` -/
abbrev getPieces (c : Color) : Bitboard := b.positionAll.get c

/-- `get_king(side)` -/
abbrev getKing (c : Color) : Option Square := b.king.get c

def hasFlag (f : CastleFlag) : Bool := b.flags &&& f.mask != 0#32

def colorAt (sq : Square) : Option Color :=
  [Color.white, .black].find? (fun c => Bitboard.testbit (b.getPieces c) sq)

def pieceAt (sq : Square) : Option Piece :=
  [Piece.pawn, .knight, .bishop, .rook, .queen, .king].find?
    (fun p => Bitboard.testbit (b.pos .white p ||| b.pos .black p) sq)

/-- The square of the pawn that can be taken en passant, not `epsq` itself. -/
def getEppawn : Option Square :=
  match b.epsq with
  | none => none
  | some ep =>
    if rnk ep = rank3 then some (ep + 8)
    else if rnk ep = rank6 then some (ep - 8)
    else none

/-! ## Pieces -/

section Keys

variable [k : Build]

def placePiece (sq : Square) (c : Color) (p : Piece) : Board :=
  { b with
    position := b.position.set c ((b.position.get c).set p (Bitboard.setbit (b.pos c p) sq))
    positionAll := b.positionAll.set c (Bitboard.setbit (b.getPieces c) sq)
    occupied := Bitboard.setbit b.occupied sq
    occupiedL90 := Bitboard.setbit b.occupiedL90 (mapL90 sq)
    occupiedL45 := Bitboard.setbit b.occupiedL45 (mapL45 sq)
    occupiedR45 := Bitboard.setbit b.occupiedR45 (mapR45 sq)
    king := if p = .king then b.king.set c (some sq) else b.king
    material := b.material.set c (b.material.get c + matValues p)
    hashkey := b.hashkey ^^^ k.hashkeys c p sq
    pawnhashkey := if p = .pawn then b.pawnhashkey ^^^ k.hashkeys c p sq else b.pawnhashkey }

def removePiece (sq : Square) (c : Color) (p : Piece) : Board :=
  { b with
    position := b.position.set c ((b.position.get c).set p (Bitboard.clearbit (b.pos c p) sq))
    positionAll := b.positionAll.set c (Bitboard.clearbit (b.getPieces c) sq)
    occupied := Bitboard.clearbit b.occupied sq
    occupiedL90 := Bitboard.clearbit b.occupiedL90 (mapL90 sq)
    occupiedL45 := Bitboard.clearbit b.occupiedL45 (mapL45 sq)
    occupiedR45 := Bitboard.clearbit b.occupiedR45 (mapR45 sq)
    king := if p = .king then b.king.set c none else b.king
    material := b.material.set c (b.material.get c - matValues p)
    hashkey := b.hashkey ^^^ k.hashkeys c p sq
    pawnhashkey := if p = .pawn then b.pawnhashkey ^^^ k.hashkeys c p sq else b.pawnhashkey }

def movePiece (src dst : Square) (c : Color) (p : Piece) : Board :=
  { b with
    position := b.position.set c ((b.position.get c).set p
      (Bitboard.setbit (Bitboard.clearbit (b.pos c p) src) dst))
    positionAll := b.positionAll.set c
      (Bitboard.setbit (Bitboard.clearbit (b.getPieces c) src) dst)
    occupied := Bitboard.setbit (Bitboard.clearbit b.occupied src) dst
    occupiedL90 := Bitboard.setbit (Bitboard.clearbit b.occupiedL90 (mapL90 src)) (mapL90 dst)
    occupiedL45 := Bitboard.setbit (Bitboard.clearbit b.occupiedL45 (mapL45 src)) (mapL45 dst)
    occupiedR45 := Bitboard.setbit (Bitboard.clearbit b.occupiedR45 (mapR45 src)) (mapR45 dst)
    king := if p = .king then b.king.set c (some dst) else b.king
    hashkey := b.hashkey ^^^ k.hashkeys c p src ^^^ k.hashkeys c p dst
    pawnhashkey :=
      if p = .pawn then b.pawnhashkey ^^^ k.hashkeys c p src ^^^ k.hashkeys c p dst
      else b.pawnhashkey }

/-! ## Side to move, castling flags, en passant square -/

def switchSides : Board :=
  { b with
    side := b.side.xside
    hashkey := b.hashkey ^^^ k.hashSide
    pawnhashkey := b.pawnhashkey ^^^ k.hashSide }

def setSide (c : Color) : Board := if b.side ≠ c then b.switchSides else b

/-- The key that `set_flag` and `clear_flag` toggle. -/
def flagKey : CastleFlag → Hashkey
  | .wk => k.hashWk
  | .wq => k.hashWq
  | .bk => k.hashBk
  | .bq => k.hashBq

def setFlag (f : CastleFlag) : Board :=
  if b.hasFlag f then b
  else { b with flags := b.flags ||| f.mask, hashkey := b.hashkey ^^^ flagKey f }

def clearFlag (f : CastleFlag) : Board :=
  if b.hasFlag f then { b with flags := b.flags &&& ~~~f.mask, hashkey := b.hashkey ^^^ flagKey f }
  else b

/-- The key of an en passant square; `NO_SQUARE` contributes nothing. -/
def epKey : Option Square → Hashkey
  | none => 0#64
  | some sq => k.hashEp sq

def setEpsq (sq : Option Square) : Board :=
  { b with epsq := sq, hashkey := b.hashkey ^^^ epKey b.epsq ^^^ epKey sq }

def clearEpsq : Board := { b with epsq := none, hashkey := b.hashkey ^^^ epKey b.epsq }

end Keys

end Board

/-! ## Making a move -/

/-- One call of `place_piece`, `remove_piece` or `move_piece`. -/
inductive PieceOp where
  | place (sq : Square) (c : Color) (p : Piece)
  | remove (sq : Square) (c : Color) (p : Piece)
  | move (src dst : Square) (c : Color) (p : Piece)
  deriving DecidableEq, Repr

namespace PieceOp

def exec [Build] (b : Board) : PieceOp → Board
  | place sq c p => b.placePiece sq c p
  | remove sq c p => b.removePiece sq c p
  | move src dst c p => b.movePiece src dst c p

/-- The `ASSERT_DEBUG`s at the head of the three functions. -/
def Ok (b : Board) : PieceOp → Prop
  | place sq _ _ => b.colorAt sq = none ∧ b.pieceAt sq = none
  | remove sq c p => b.colorAt sq = some c ∧ b.pieceAt sq = some p
  | move src dst c p =>
    (b.colorAt src = some c ∧ b.pieceAt src = some p) ∧
      b.colorAt dst = none ∧ b.pieceAt dst = none

instance (b : Board) (op : PieceOp) : Decidable (op.Ok b) := by
  cases op <;> exact inferInstanceAs (Decidable (_ ∧ _))

end PieceOp

namespace Board

section Keys

variable [k : Build] (b : Board)

def runOps (ops : List PieceOp) : Board := ops.foldl PieceOp.exec b

/-- Every call finds the board as it asserts. -/
def OpsOk : Board → List PieceOp → Prop
  | _, [] => True
  | b, op :: ops => op.Ok b ∧ OpsOk (op.exec b) ops

instance instDecidableOpsOk : ∀ (b : Board) (ops : List PieceOp), Decidable (b.OpsOk ops)
  | _, [] => inferInstanceAs (Decidable True)
  | b, op :: ops =>
    have := instDecidableOpsOk (op.exec b) ops
    inferInstanceAs (Decidable (op.Ok b ∧ _))

/-- The rook's part of castling; any other `to` square is a `BUG()`. -/
def castleRookOp (c : Color) (dst : Square) : List PieceOp :=
  if dst = c1 then [.move a1 d1 c .rook]
  else if dst = g1 then [.move h1 f1 c .rook]
  else if dst = c8 then [.move a8 d8 c .rook]
  else if dst = g8 then [.move h8 f8 c .rook]
  else []

/-- The piece operations of a move, in the order in which `make_move`
executes them.  A piece code that names no piece would index outside
`position`; such an operation is left out. -/
def moveOps (mov : Move) : List PieceOp :=
  if mov.isCapture then
    if mov.isPromotion then
      [.remove mov.fromSq b.side .pawn] ++
        (mov.capPtype.map (.remove mov.toSq b.side.xside)).toList ++
        (mov.promoteTo.map (.place mov.toSq b.side)).toList
    else
      (mov.capPtype.map (.remove mov.toSq b.side.xside)).toList ++
        (mov.ptype.map (.move mov.fromSq mov.toSq b.side)).toList
  else if mov.isNormal then
    if mov.isPromotion then
      [.remove mov.fromSq b.side .pawn] ++ (mov.promoteTo.map (.place mov.toSq b.side)).toList
    else (mov.ptype.map (.move mov.fromSq mov.toSq b.side)).toList
  else if mov.isCastle then
    .move mov.fromSq mov.toSq b.side .king :: castleRookOp b.side mov.toSq
  else if mov.isEnpassant then
    .move mov.fromSq mov.toSq b.side .pawn ::
      (b.getEppawn.map (fun sq => .remove sq b.side.xside .pawn)).toList
  else []

/-- The flag that belongs to a rook's home square. -/
def cornerFlag (sq : Square) : Option CastleFlag :=
  if sq = a1 then some .wq
  else if sq = h1 then some .wk
  else if sq = a8 then some .bq
  else if sq = h8 then some .bk
  else none

def clearCorner (sq : Square) : Board :=
  match cornerFlag sq with
  | none => b
  | some f => b.clearFlag f

/-- Clear castling flags if a king or rook has moved or a rook was captured. -/
def clearCastling (mov : Move) : Board :=
  let b :=
    if mov.ptype = some .king then
      if b.side = .white then (b.clearFlag .wk).clearFlag .wq
      else (b.clearFlag .bk).clearFlag .bq
    else b
  let b := if mov.ptype = some .rook then b.clearCorner mov.fromSq else b
  if mov.isCapture && mov.capPtype = some .rook then b.clearCorner mov.toSq else b

/-- Set or clear the en passant square. -/
def updateEpsq (mov : Move) : Board :=
  if mov.ptype = some .pawn then
    if (mov.toSq.val : Int) - mov.fromSq.val = 16 then b.setEpsq (some (mov.toSq - 8))
    else if (mov.toSq.val : Int) - mov.fromSq.val = -16 then b.setEpsq (some (mov.toSq + 8))
    else b.clearEpsq
  else b.clearEpsq

/-- Switch sides and update `moveno`, `movecnt50` and `pce_movecnt`. -/
def updateCounters (mov : Move) : Board :=
  let b := b.switchSides
  { b with
    moveno := if b.side = .white then b.moveno + 1 else b.moveno
    movecnt50 := if mov.ptype = some .pawn ∨ mov.isCapture then 0 else b.movecnt50 + 1
    pceMovecnt :=
      if mov.isNull then b.pceMovecnt
      else (b.pceMovecnt.set mov.toSq.val (b.pceMovecnt.get mov.fromSq + 1)).set
        mov.fromSq.val 0#32 }

def setCastled (mov : Move) : Board :=
  if !mov.isCapture && !mov.isNormal && mov.isCastle then
    { b with hasCastled := b.hasCastled.set b.side true }
  else b

def makeMove (mov : Move) : Board :=
  (((((b.runOps (b.moveOps mov)).setCastled mov).clearCastling mov).updateEpsq mov).updateCounters
    mov)

end Keys

end Board

end HoiChess.Chess
