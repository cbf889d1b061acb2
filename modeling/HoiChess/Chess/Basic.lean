import HoiChess.Lib.Grid
import Mathlib.Data.Fintype.Basic

/-!
# Basic data types

Colours, pieces, castling flags and squares of the chess program, the material values, and
the 8x8 coordinate system behind `FIL` and `RNK`.  The sentinels `NO_COLOR`,
`NO_PIECE` and `NO_SQUARE` (all -1 in the source) are `none` of an `Option`.
`PerColor` and `PerPiece` are the arrays indexed by `[2]` and `[6]`.
-/

namespace HoiChess.Chess

inductive Color where
  | white | black
  deriving DecidableEq, Repr

inductive Piece where
  | pawn | knight | bishop | rook | queen | king
  deriving DecidableEq, Repr

inductive CastleFlag where
  | wk | wq | bk | bq
  deriving DecidableEq, Repr

instance : Fintype Color := ⟨{.white, .black}, fun c => by cases c <;> simp⟩

instance : Fintype Piece :=
  ⟨{.pawn, .knight, .bishop, .rook, .queen, .king}, fun p => by cases p <;> simp⟩

abbrev Square := Fin 64

/-- A number names a square, taken modulo 64. -/
instance neZero_squares : NeZero 64 := ⟨by decide⟩

/-- A number names a rank or a file. -/
instance neZero_ranks : NeZero 8 := ⟨by decide⟩

instance : LawfulBEq Square := inferInstance

/-- A piece with its colour, as it stands on a square. -/
abbrev Man := Color × Piece

/-- `XSIDE`: the other side. -/
def Color.xside : Color → Color
  | .white => .black
  | .black => .white

@[simp] theorem xside_xside (c : Color) : c.xside.xside = c := by cases c <;> rfl
@[simp] theorem xside_ne (c : Color) : c.xside ≠ c := by cases c <;> decide
@[simp] theorem ne_xside (c : Color) : c ≠ c.xside := by cases c <;> decide

theorem eq_or_eq_xside (c d : Color) : d = c ∨ d = c.xside := by
  cases c <;> cases d <;> decide

theorem eq_xside_of_ne {c d : Color} (h : d ≠ c) : d = c.xside :=
  (eq_or_eq_xside c d).resolve_left h

/-- `mat_values`. -/
def matValues : Piece → Int
  | .pawn => 100
  | .knight => 300
  | .bishop => 325
  | .rook => 500
  | .queen => 900
  | .king => 0

/-! ## Squares and coordinates -/

def fil (sq : Square) : Nat := sq.val % 8
def rnk (sq : Square) : Nat := sq.val / 8

/-- `SQUARE(rnk, fil)` for coordinates on the board. -/
def mkSquare (r f : Fin 8) : Square := ⟨r.val * 8 + f.val, by omega⟩

abbrev rank1 : Nat := 0
abbrev rank2 : Nat := 1
abbrev rank3 : Nat := 2
abbrev rank4 : Nat := 3
abbrev rank5 : Nat := 4
abbrev rank6 : Nat := 5
abbrev rank7 : Nat := 6
abbrev rank8 : Nat := 7

abbrev a1 : Square := 0
abbrev c1 : Square := 2
abbrev d1 : Square := 3
abbrev e1 : Square := 4
abbrev f1 : Square := 5
abbrev g1 : Square := 6
abbrev h1 : Square := 7
abbrev a8 : Square := 56
abbrev c8 : Square := 58
abbrev d8 : Square := 59
abbrev e8 : Square := 60
abbrev f8 : Square := 61
abbrev g8 : Square := 62
abbrev h8 : Square := 63

theorem fil_lt (sq : Square) : fil sq < 8 := Nat.mod_lt _ (by decide)
theorem rnk_lt (sq : Square) : rnk sq < 8 := by unfold rnk; omega

theorem square_val (sq : Square) : sq.val = rnk sq * 8 + fil sq := by
  unfold rnk fil; omega

theorem square_ext {s t : Square} (hf : fil s = fil t) (hr : rnk s = rnk t) : s = t := by
  apply Fin.ext
  rw [square_val s, square_val t, hf, hr]

instance : Grid Square where
  width := 8
  height := 8
  x sq := (fil sq : ℤ)
  y sq := (rnk sq : ℤ)
  cell i j :=
    if h : (0 ≤ i ∧ i < 8) ∧ (0 ≤ j ∧ j < 8) then some ⟨(j * 8 + i).toNat, by omega⟩ else none
  cell_eq_some i j s := by
    have hf := fil_lt s
    have hr := rnk_lt s
    constructor
    · intro h
      split at h
      · cases h
        unfold fil rnk
        constructor <;> simp only <;> omega
      · cases h
    · rintro ⟨rfl, rfl⟩
      rw [dif_pos (by omega)]
      congr 1
      apply Fin.ext
      rw [square_val s]
      simp only
      omega
  cell_isSome i j := by
    split <;> simp [*]

@[simp] theorem grid_width : Grid.width Square = 8 := rfl
@[simp] theorem grid_height : Grid.height Square = 8 := rfl
theorem grid_x (sq : Square) : Grid.x sq = (fil sq : ℤ) := rfl
theorem grid_y (sq : Square) : Grid.y sq = (rnk sq : ℤ) := rfl

/-! ## Arrays indexed by colour and by piece -/

structure PerColor (α : Type) where
  white : α
  black : α
  deriving DecidableEq, Repr

structure PerPiece (α : Type) where
  pawn : α
  knight : α
  bishop : α
  rook : α
  queen : α
  king : α
  deriving DecidableEq, Repr

variable {α : Type}

def PerColor.get (a : PerColor α) : Color → α
  | .white => a.white
  | .black => a.black

def PerColor.set (a : PerColor α) (c : Color) (v : α) : PerColor α :=
  match c with
  | .white => { a with white := v }
  | .black => { a with black := v }

def PerColor.both (v : α) : PerColor α := ⟨v, v⟩

def PerPiece.get (a : PerPiece α) : Piece → α
  | .pawn => a.pawn
  | .knight => a.knight
  | .bishop => a.bishop
  | .rook => a.rook
  | .queen => a.queen
  | .king => a.king

def PerPiece.set (a : PerPiece α) (p : Piece) (v : α) : PerPiece α :=
  match p with
  | .pawn => { a with pawn := v }
  | .knight => { a with knight := v }
  | .bishop => { a with bishop := v }
  | .rook => { a with rook := v }
  | .queen => { a with queen := v }
  | .king => { a with king := v }

def PerPiece.all (v : α) : PerPiece α := ⟨v, v, v, v, v, v⟩

@[simp] theorem PerColor.get_both (v : α) (c : Color) : (PerColor.both v).get c = v := by
  cases c <;> rfl

@[simp] theorem PerPiece.get_all (v : α) (p : Piece) : (PerPiece.all v).get p = v := by
  cases p <;> rfl

theorem PerColor.ext_get {x y : PerColor α} (h : ∀ c, x.get c = y.get c) : x = y := by
  cases x
  cases y
  have h1 := h .white
  have h2 := h .black
  simp only [PerColor.get] at h1 h2
  rw [h1, h2]

theorem PerPiece.ext_get {x y : PerPiece α} (h : ∀ p, x.get p = y.get p) : x = y := by
  cases x
  cases y
  have h1 := h .pawn
  have h2 := h .knight
  have h3 := h .bishop
  have h4 := h .rook
  have h5 := h .queen
  have h6 := h .king
  simp only [PerPiece.get] at h1 h2 h3 h4 h5 h6
  rw [h1, h2, h3, h4, h5, h6]

theorem PerColor.get_set (a : PerColor α) (c d : Color) (v : α) :
    (a.set c v).get d = if c = d then v else a.get d := by
  cases c <;> cases d <;> rfl

@[simp] theorem PerColor.get_set_self (a : PerColor α) (c : Color) (v : α) :
    (a.set c v).get c = v := by
  simp [PerColor.get_set]

theorem PerColor.set_set (a : PerColor α) (c : Color) (v w : α) : (a.set c v).set c w = a.set c w := by
  cases c <;> rfl

theorem PerColor.set_get (a : PerColor α) (c : Color) : a.set c (a.get c) = a := by
  cases c <;> rfl

theorem PerPiece.get_set (a : PerPiece α) (p q : Piece) (v : α) :
    (a.set p v).get q = if p = q then v else a.get q := by
  cases p <;> cases q <;> rfl

end HoiChess.Chess
