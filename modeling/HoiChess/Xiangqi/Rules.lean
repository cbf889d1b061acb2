import HoiChess.Xiangqi.Mailbox

/-!
# The rules of xiangqi on the coordinate board

The reference that the program's move generation and move execution are compared with.  It
knows nothing of mailboxes, tables or key words: the men step, leap and slide on the grid
of nine files and ten ranks (`Moves`), a `Ply` says who moves from where to where and takes
what, and `Legal` adds that the own general is neither attacked nor faces the other one
afterwards.
-/

namespace HoiChess.Xiangqi

open Grid
open Chess (Color)

abbrev Placement := Square → Option Man

namespace Rules

/-! ## How the men move -/

def forward : Color → Dir
  | .white => (0, 1)
  | .black => (0, -1)

/-- Beyond the river, as seen from the side. -/
def Crossed (c : Color) (sq : Square) : Prop := OnHalf c.xside sq

/-- Exactly one man stands between the two squares. -/
def OneScreen (man : Placement) (s t : Square) : Prop :=
  ∃ u, Between s t u ∧ man u ≠ none ∧ ∀ v, Between s t v → man v ≠ none → v = u

/-- Nobody stands between the two squares. -/
def Clear (man : Placement) (s t : Square) : Prop := ∀ u, Between s t u → man u = none

/-- How a man of side `c` gets from `s` to `t`, with or without taking something there. -/
def Moves (man : Placement) (c : Color) (taking : Bool) (s t : Square) : Piece → Prop
  | .pawn => Along s (forward c) 1 t ∨
      (Crossed c s ∧ ∃ d ∈ [((1 : ℤ), (0 : ℤ)), (-1, 0)], Along s d 1 t)
  | .guard => InPalace c t ∧ ∃ d ∈ bishopDirs, Along s d 1 t
  | .elephant => OnHalf c t ∧
      ∃ d ∈ bishopDirs, ∃ eye, Along s d 1 eye ∧ man eye = none ∧ Along s d 2 t
  | .knight => ∃ d ∈ rookDirs, ∃ e ∈ bishopDirs, d.1 * e.1 + d.2 * e.2 = 1 ∧
      ∃ leg, Along s d 1 leg ∧ man leg = none ∧ Along leg e 1 t
  | .cannon => Aligned rookDirs s t ∧ if taking then OneScreen man s t else Clear man s t
  | .rook => Aligned rookDirs s t ∧ Clear man s t
  | .king => InPalace c t ∧ ∃ d ∈ rookDirs, Along s d 1 t

/-- The generals look at each other along a file. -/
def Facing (man : Placement) : Prop :=
  ∃ w b, man w = some (.white, .king) ∧ man b = some (.black, .king) ∧ fil w = fil b ∧ Clear man w b

/-! ## Positions and moves -/

structure Position where
  man : Placement
  side : Color

/-- A move together with the moving man and what it takes. -/
structure Ply where
  src : Square
  dst : Square
  piece : Piece
  cap : Option Piece
  deriving DecidableEq, Repr

namespace Position

variable (pos : Position)

/-- By the rules, except that the own general may be left in danger. -/
structure Pseudo (ply : Ply) : Prop where
  man_src : pos.man ply.src = some (pos.side, ply.piece)
  man_dst : pos.man ply.dst = ply.cap.map (fun q => (pos.side.xside, q))
  moves : Moves pos.man pos.side ply.cap.isSome ply.src ply.dst ply.piece

def placement (ply : Ply) : Placement :=
  Function.update (Function.update pos.man ply.src none) ply.dst (some (pos.side, ply.piece))

/-- The position after a move. -/
def apply (ply : Ply) : Position := ⟨pos.placement ply, pos.side.xside⟩

/-- Passing the turn. -/
def pass : Position := { pos with side := pos.side.xside }

/-- The side to move could go to the square. -/
def Attacks (sq : Square) : Prop := ∃ ply, pos.Pseudo ply ∧ ply.dst = sq

/-- The side that just moved has not left its general in danger. -/
def Safe : Prop :=
  ¬ Facing pos.man ∧ ∀ k, pos.man k = some (pos.side.xside, .king) → ¬ pos.Attacks k

def InCheck : Prop := ¬ pos.pass.Safe

def Legal (ply : Ply) : Prop := pos.Pseudo ply ∧ (pos.apply ply).Safe

end Position

end Rules

end HoiChess.Xiangqi
