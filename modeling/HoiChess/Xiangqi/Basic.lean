import HoiChess.Chess.Basic

/-!
# Basic data types of the xiangqi program

Pieces, squares, material values and moves of the second game.  Colours and the arrays indexed
by them are those of the chess program.  A board has nine files and ten ranks; the sentinels
`NO_COLOR`, `NO_PIECE` and `NO_SQUARE` (all -1 in the source) are `none` of an `Option`.
-/

namespace HoiChess.Xiangqi

open Chess (Color PerColor)

inductive Piece where
  | pawn | guard | elephant | knight | cannon | rook | king
  deriving DecidableEq, Repr

instance : Fintype Piece :=
  ⟨{.pawn, .guard, .elephant, .knight, .cannon, .rook, .king}, fun p => by cases p <;> simp⟩

/-- `A0, .., I9` -/
abbrev Square := Fin 90

theorem toNat_lt_squares {v : Int} (h : 0 ≤ v ∧ v < 90) : v.toNat < 90 := by omega

/-- A piece with its colour, as it stands on a square. -/
abbrev Man := Color × Piece

/-- `mat_values`. -/
def matValues : Piece → Int
  | .pawn => 100
  | .guard => 200
  | .elephant => 200
  | .knight => 400
  | .cannon => 450
  | .rook => 900
  | .king => 0

/-! ## Squares and coordinates -/

/-- `FIL(sq)` -/
def fil (sq : Square) : Nat := sq.val % 9

/-- `RNK(sq)` -/
def rnk (sq : Square) : Nat := sq.val / 9

abbrev rank4 : Nat := 4
abbrev rank5 : Nat := 5

theorem fil_lt (sq : Square) : fil sq < 9 := Nat.mod_lt _ (by decide)
theorem rnk_lt (sq : Square) : rnk sq < 10 := by unfold rnk; omega

theorem square_val (sq : Square) : sq.val = rnk sq * 9 + fil sq := by
  unfold rnk fil; omega

theorem square_ext {s t : Square} (hf : fil s = fil t) (hr : rnk s = rnk t) : s = t := by
  apply Fin.ext
  rw [square_val s, square_val t, hf, hr]

instance : Grid Square where
  width := 9
  height := 10
  x sq := (fil sq : ℤ)
  y sq := (rnk sq : ℤ)
  cell i j :=
    if h : (0 ≤ i ∧ i < 9) ∧ (0 ≤ j ∧ j < 10) then some ⟨(j * 9 + i).toNat, by omega⟩ else none
  cell_eq_some i j s := by
    have hf := fil_lt s
    have hr := rnk_lt s
    constructor
    · intro h
      split at h
      · cases h
        unfold fil rnk
        constructor <;> simp only <;> omega
      · cases h
    · rintro ⟨rfl, rfl⟩
      rw [dif_pos (by omega)]
      congr 1
      apply Fin.ext
      rw [square_val s]
      simp only
      omega
  cell_isSome i j := by
    split <;> simp [*]

@[simp] theorem grid_width : Grid.width Square = 9 := rfl
@[simp] theorem grid_height : Grid.height Square = 10 := rfl
theorem grid_x (sq : Square) : Grid.x sq = (fil sq : ℤ) := rfl
theorem grid_y (sq : Square) : Grid.y sq = (rnk sq : ℤ) := rfl

/-! ## Moves -/

structure Move where
  movFrom : Option Square
  movTo : Option Square
  movPtype : Option Piece
  movCapPtype : Option Piece
  movFlags : BitVec 16
  deriving DecidableEq, Repr

namespace Move

abbrev moveNormal : BitVec 16 := 0x0001#16
abbrev moveCapture : BitVec 16 := 0x0002#16
abbrev moveNull : BitVec 16 := 0x0020#16

/-- `NO_MOVE` -/
def noMove : Move := ⟨none, none, none, none, 0#16⟩

def hasFlag (m : Move) (f : BitVec 16) : Bool := m.movFlags &&& f != 0#16

def isNormal (m : Move) : Bool := m.hasFlag moveNormal
def isCapture (m : Move) : Bool := m.hasFlag moveCapture
def isNull (m : Move) : Bool := m.hasFlag moveNull

abbrev normal (src dst : Square) (ptype : Piece) : Move :=
  ⟨some src, some dst, some ptype, none, moveNormal⟩

abbrev capture (src dst : Square) (ptype capPtype : Piece) : Move :=
  ⟨some src, some dst, some ptype, some capPtype, moveCapture⟩

abbrev null : Move := ⟨none, none, none, none, moveNull⟩

@[simp] theorem isNormal_normal (s t : Square) (p : Piece) : (normal s t p).isNormal = true := by
  exact (by decide : (moveNormal &&& moveNormal != 0#16) = true)

@[simp] theorem isCapture_normal (s t : Square) (p : Piece) :
    (normal s t p).isCapture = false := by
  exact (by decide : (moveNormal &&& moveCapture != 0#16) = false)

@[simp] theorem isNull_normal (s t : Square) (p : Piece) : (normal s t p).isNull = false := by
  exact (by decide : (moveNormal &&& moveNull != 0#16) = false)

@[simp] theorem isCapture_capture (s t : Square) (p q : Piece) :
    (capture s t p q).isCapture = true := by
  exact (by decide : (moveCapture &&& moveCapture != 0#16) = true)

@[simp] theorem isNull_capture (s t : Square) (p q : Piece) :
    (capture s t p q).isNull = false := by
  exact (by decide : (moveCapture &&& moveNull != 0#16) = false)

@[simp] theorem isNormal_null : null.isNormal = false := rfl
@[simp] theorem isCapture_null : null.isCapture = false := rfl
@[simp] theorem isNull_null : null.isNull = true := rfl

end Move

end HoiChess.Xiangqi
