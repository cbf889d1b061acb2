import HoiChess.Lib.Capped
import HoiChess.Xiangqi.Mailbox

/-!
# The xiangqi board, its attacks and its moves

The board is kept by square, with the squares of the kings, the material and two hash keys
beside it.  Attacks walk on the mailbox, move lists are what the attacks of all men of a
side hit, and whether a king is attacked is asked of the move list of the other side.
-/

namespace HoiChess.Xiangqi

open Chess (Color PerColor)

abbrev Hashkey := BitVec 64

/-- The tables that `Board::init` fills. -/
class Keys where
  hashkeys : Color → Piece → Square → Hashkey
  hashSide : Hashkey

structure Board where
  side : Color
  moveno : Int
  movecnt50 : Int
  positionPieces : Square → Option Piece
  positionColors : Square → Option Color
  king : PerColor (Option Square)
  material : PerColor Int
  pceMovecnt : Square → BitVec 32
  hashkey : Hashkey
  pawnhashkey : Hashkey

namespace Board

/-- The board after `clear()`. -/
def clear : Board where
  side := .white
  moveno := 1
  movecnt50 := 0
  positionPieces _ := none
  positionColors _ := none
  king := .both none
  material := .both 0
  pceMovecnt _ := 0#32
  hashkey := 0#64
  pawnhashkey := 0#64

variable (b : Board)

/-- `color_at(sq)` -/
abbrev colorAt (sq : Square) : Option Color := b.positionColors sq

/-- `piece_at(sq)` -/
abbrev pieceAt (sq : Square) : Option Piece := b.positionPieces sq

/-- `get_king(side)` -/
abbrev getKing (c : Color) : Option Square := b.king.get c

/-! ## Pieces and sides -/

section Keys

variable [k : Keys]

def switchSides : Board :=
  { b with
    side := b.side.xside
    hashkey := b.hashkey ^^^ k.hashSide
    pawnhashkey := b.pawnhashkey ^^^ k.hashSide }

def setSide (c : Color) : Board := if b.side ≠ c then b.switchSides else b

def placePiece (sq : Square) (c : Color) (p : Piece) : Board :=
  { b with
    positionPieces := Function.update b.positionPieces sq (some p)
    positionColors := Function.update b.positionColors sq (some c)
    king := if p = .king then b.king.set c (some sq) else b.king
    material := b.material.set c (b.material.get c + matValues p)
    hashkey := b.hashkey ^^^ k.hashkeys c p sq
    pawnhashkey := if p = .pawn then b.pawnhashkey ^^^ k.hashkeys c p sq else b.pawnhashkey }

def removePiece (sq : Square) (c : Color) (p : Piece) : Board :=
  { b with
    positionPieces := Function.update b.positionPieces sq none
    positionColors := Function.update b.positionColors sq none
    king := if p = .king then b.king.set c none else b.king
    material := b.material.set c (b.material.get c - matValues p)
    hashkey := b.hashkey ^^^ k.hashkeys c p sq
    pawnhashkey := if p = .pawn then b.pawnhashkey ^^^ k.hashkeys c p sq else b.pawnhashkey }

def movePiece (src dst : Square) (c : Color) (p : Piece) : Board :=
  { b with
    positionPieces := Function.update (Function.update b.positionPieces src none) dst (some p)
    positionColors := Function.update (Function.update b.positionColors src none) dst (some c)
    king := if p = .king then b.king.set c (some dst) else b.king
    hashkey := b.hashkey ^^^ k.hashkeys c p src ^^^ k.hashkeys c p dst
    pawnhashkey :=
      if p = .pawn then b.pawnhashkey ^^^ k.hashkeys c p src ^^^ k.hashkeys c p dst
      else b.pawnhashkey }

/-- The piece part of `make_move`.  A square or piece that is none would index outside the
arrays; such a call is left out. -/
def movePieces (mov : Move) : Board :=
  match mov.movFrom, mov.movTo, mov.movPtype with
  | some src, some dst, some p =>
    if mov.isCapture then
      match mov.movCapPtype with
      | some q => (b.removePiece dst b.side.xside q).movePiece src dst b.side p
      | none => b.movePiece src dst b.side p
    else if mov.isNormal then b.movePiece src dst b.side p
    else b
  | _, _, _ => b

/-- Switch sides and update `moveno`, `movecnt50` and `pce_movecnt`. -/
def updateCounters (mov : Move) : Board :=
  let b := b.switchSides
  { b with
    moveno := if b.side = .white then b.moveno + 1 else b.moveno
    movecnt50 :=
      if mov.movPtype = some .pawn ∧ mov.movFrom.map rnk ≠ mov.movTo.map rnk ∨ mov.isCapture then 0
      else b.movecnt50 + 1
    pceMovecnt :=
      if mov.isNull then b.pceMovecnt
      else
        match mov.movFrom, mov.movTo with
        | some src, some dst =>
          Function.update (Function.update b.pceMovecnt dst (b.pceMovecnt src + 1)) src 0
        | _, _ => b.pceMovecnt }

def makeMove (mov : Move) : Board := (b.movePieces mov).updateCounters mov

end Keys

/-! ## Attacks -/

/-- `tos[0..n)` as filled by one step: the square, if the table has one. -/
def attack (table : List Int) (t : Int) : List Square := (lookup table t).toList

def pawnAttacks (src : Square) (c : Color) : List Square :=
  let f := invmap src
  match c with
  | .white =>
    attack mapTable (f + 13) ++
      if rnk src ≥ rank5 then attack mapTable (f + 1) ++ attack mapTable (f - 1) else []
  | .black =>
    attack mapTable (f - 13) ++
      if rnk src ≤ rank4 then attack mapTable (f + 1) ++ attack mapTable (f - 1) else []

def dirGuard : List Int := [12, 14, -12, -14]

def guardAttacks (src : Square) : List Square :=
  dirGuard.flatMap (fun d => attack mapPalaceTable (invmap src + d))

/-- `free_elephant[i]`, `dir_elephant[i]` -/
def dirElephant : List (Int × Int) := [(12, 24), (14, 28), (-12, -24), (-14, -28)]

/-- The target of a step, if the cell that has to be free is on the table and free. -/
def jump (table : List Int) (src : Square) (d : Int × Int) : List Square :=
  match lookup table (invmap src + d.1) with
  | none => []
  | some eye => if b.colorAt eye ≠ none then [] else attack table (invmap src + d.2)

def elephantAttacks (src : Square) (c : Color) : List Square :=
  dirElephant.flatMap (b.jump (mapHalfTable c) src)

/-- `free_knight[i]`, `dir_knight[i]` -/
def dirKnight : List (Int × Int) :=
  [(-13, -27), (-13, -25), (1, -11), (1, 15), (13, 27), (13, 25), (-1, 11), (-1, -15)]

def knightAttacks (src : Square) : List Square := dirKnight.flatMap (b.jump mapTable src)

/-- `dir_cannon`, `dir_rook` and `dir_king` -/
def dirRook : List Int := [1, 13, -1, -13]

/-- The second loop of a cannon, behind the screen. -/
def cannonCapture (c : Color) (d : Int) : Nat → Int → List Square
  | 0, _ => []
  | fuel + 1, t =>
    match lookup mapTable (t + d) with
    | none => []
    | some dst =>
      if b.colorAt dst = some c then []
      else if b.colorAt dst = some c.xside then [dst]
      else cannonCapture c d fuel (t + d)

/-- The first loop of a cannon, up to the screen. -/
def cannonLoop (c : Color) (d : Int) : Nat → Int → List Square
  | 0, _ => []
  | fuel + 1, t =>
    match lookup mapTable (t + d) with
    | none => []
    | some dst =>
      if b.colorAt dst ≠ none then b.cannonCapture c d fuel (t + d)
      else dst :: cannonLoop c d fuel (t + d)

/-- A walk leaves the board after at most ten steps. -/
abbrev walkFuel : Nat := 10

def cannonAttacks (src : Square) (c : Color) : List Square :=
  dirRook.flatMap (fun d => b.cannonLoop c d walkFuel (invmap src))

def rookLoop (d : Int) : Nat → Int → List Square
  | 0, _ => []
  | fuel + 1, t =>
    match lookup mapTable (t + d) with
    | none => []
    | some dst => if b.colorAt dst = none then dst :: rookLoop d fuel (t + d) else [dst]

def rookAttacks (src : Square) : List Square :=
  dirRook.flatMap (fun d => b.rookLoop d walkFuel (invmap src))

def kingAttacks (src : Square) : List Square :=
  dirRook.flatMap (fun d => attack mapPalaceTable (invmap src + d))

/-- The function called for a piece by `generate_captures` and `generate_noncaptures`. -/
def attacks (p : Piece) (src : Square) (c : Color) : List Square :=
  match p with
  | .pawn => pawnAttacks src c
  | .guard => guardAttacks src
  | .elephant => b.elephantAttacks src c
  | .knight => b.knightAttacks src
  | .cannon => b.cannonAttacks src c
  | .rook => b.rookAttacks src
  | .king => kingAttacks src

/-! ## Move generation -/

end Board

abbrev movelistMaxsize : Nat := 256

/-- Moves with their scores. -/
abbrev Movelist := Capped movelistMaxsize (Move × Int)

def Movelist.moves (ml : Movelist) : List Move := ml.entries.map Prod.fst

def Movelist.addMoves (ml : Movelist) (l : List Move) : Movelist := ml.addAll (l.map (fun mov => (mov, 0)))

namespace Board

variable (b : Board)

/-- `ADD_IF_CAPTURE` -/
def captureTo (src : Square) (p : Piece) (dst : Square) : List Move :=
  if b.colorAt dst = some b.side.xside then
    ((b.pieceAt dst).map (fun q => Move.capture src dst p q)).toList
  else []

/-- `ADD_IF_NONCAPTURE` -/
def noncaptureTo (src : Square) (p : Piece) (dst : Square) : List Move :=
  if b.colorAt dst = none then [.normal src dst p] else []

/-- The moves of the man on `src`, if it is one of the side to move; a square of that
side without a piece would be a `BUG()`. -/
def movesFrom (add : Square → Piece → Square → List Move) (src : Square) : List Move :=
  if b.colorAt src ≠ some b.side then []
  else
    match b.pieceAt src with
    | none => []
    | some p => (b.attacks p src b.side).flatMap (add src p)

def generateCaptures (ml : Movelist) : Movelist :=
  ml.addMoves ((List.finRange 90).flatMap (b.movesFrom b.captureTo))

def generateNoncaptures (ml : Movelist) : Movelist :=
  ml.addMoves ((List.finRange 90).flatMap (b.movesFrom b.noncaptureTo))

def generateMoves (ml : Movelist) : Movelist := b.generateNoncaptures (b.generateCaptures ml)

/-! ## Check and legality -/

/-- The value of a `Square` variable. -/
def squareInt : Option Square → Int
  | none => -1
  | some sq => sq.val

/-- `for (sq = sqw+9; sq != sqb; sq += 9)` of `kings_facing`; nothing if the walk leaves the board. -/
def facingLoop (sqb : Int) : Nat → Int → Option Bool
  | 0, _ => none
  | fuel + 1, sq =>
    if sq = sqb then some true
    else if h : 0 ≤ sq ∧ sq < 90 then
      if b.colorAt ⟨sq.toNat, toNat_lt_squares h⟩ ≠ none then some false else facingLoop sqb fuel (sq + 9)
    else none

/-- The walk of `kings_facing`, and its outcome if it has one. -/
def kingsFacingWalk : Option Bool :=
  let sqw := squareInt (b.getKing .white)
  let sqb := squareInt (b.getKing .black)
  if sqw.tmod 9 ≠ sqb.tmod 9 then some false else b.facingLoop sqb walkFuel (sqw + 9)

/-- `kings_facing()`; a walk off the board has no outcome and counts as no. -/
def kingsFacing : Bool := b.kingsFacingWalk.getD false

section Keys

variable [Keys]

/-- `is_attacked(to, atkside)` -/
def isAttacked (dst : Option Square) (atkside : Color) : Bool :=
  let b := if atkside ≠ b.side then b.makeMove .null else b
  (b.generateMoves .empty).moves.any (fun mov => mov.movTo = dst)

def inCheck : Bool := b.kingsFacing || b.isAttacked (b.getKing b.side) b.side.xside

def isLegal : Bool := !b.kingsFacing && !b.isAttacked (b.getKing b.side.xside) b.side

/-- Only origin and destination are looked at. -/
def isValidMove (mov : Move) : Bool :=
  if mov.isNull then true
  else
    match mov.movFrom, mov.movTo with
    | some src, some dst =>
      if b.colorAt src ≠ some b.side ∨ b.pieceAt src ≠ mov.movPtype then false
      else if mov.isCapture then b.colorAt dst = some b.side.xside
      else b.colorAt dst = none
    | _, _ => false

def isLegalMove (mov : Move) : Bool := (b.makeMove mov).isLegal

def filterIllegal (ml : Movelist) : Movelist := ml.filter (fun e => b.isLegalMove e.1)

/-- `generate_moves` and then `filter_illegal`. -/
def legalMoves : Movelist := b.filterIllegal (b.generateMoves .empty)

end Keys

end Board

end HoiChess.Xiangqi
