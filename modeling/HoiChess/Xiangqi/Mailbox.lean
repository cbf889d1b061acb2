import HoiChess.Xiangqi.Basic

/-!
# The padded mailbox

Squares are mapped to cells of a board of 13 by 14 cells, on which a step is one addition;
a table maps the cells back to squares, or to -1 off the board, off the palaces or off one
half.  A step in the mailbox is a step on the coordinate board (`mailbox_step`), for steps
of up to two files and ranks.
-/

namespace HoiChess.Xiangqi

open Grid
open Chess (Color)

/-- `map` -/
def mapTable : List Int := [
  -1, -1, -1, -1, -1, -1, -1, -1, -1, -1, -1, -1, -1,
  -1, -1, -1, -1, -1, -1, -1, -1, -1, -1, -1, -1, -1,
  -1, -1,  0,  1,  2,  3,  4,  5,  6,  7,  8, -1, -1,
  -1, -1,  9, 10, 11, 12, 13, 14, 15, 16, 17, -1, -1,
  -1, -1, 18, 19, 20, 21, 22, 23, 24, 25, 26, -1, -1,
  -1, -1, 27, 28, 29, 30, 31, 32, 33, 34, 35, -1, -1,
  -1, -1, 36, 37, 38, 39, 40, 41, 42, 43, 44, -1, -1,
  -1, -1, 45, 46, 47, 48, 49, 50, 51, 52, 53, -1, -1,
  -1, -1, 54, 55, 56, 57, 58, 59, 60, 61, 62, -1, -1,
  -1, -1, 63, 64, 65, 66, 67, 68, 69, 70, 71, -1, -1,
  -1, -1, 72, 73, 74, 75, 76, 77, 78, 79, 80, -1, -1,
  -1, -1, 81, 82, 83, 84, 85, 86, 87, 88, 89, -1, -1,
  -1, -1, -1, -1, -1, -1, -1, -1, -1, -1, -1, -1, -1,
  -1, -1, -1, -1, -1, -1, -1, -1, -1, -1, -1, -1, -1]

/-- `invmap` -/
def invmapTable : List Int := [
  28, 29, 30, 31, 32, 33, 34, 35, 36,
  41, 42, 43, 44, 45, 46, 47, 48, 49,
  54, 55, 56, 57, 58, 59, 60, 61, 62,
  67, 68, 69, 70, 71, 72, 73, 74, 75,
  80, 81, 82, 83, 84, 85, 86, 87, 88,
  93, 94, 95, 96, 97, 98, 99, 100, 101,
  106, 107, 108, 109, 110, 111, 112, 113, 114,
  119, 120, 121, 122, 123, 124, 125, 126, 127,
  132, 133, 134, 135, 136, 137, 138, 139, 140,
  145, 146, 147, 148, 149, 150, 151, 152, 153]

/-- `map_palace` -/
def mapPalaceTable : List Int := [
  -1, -1, -1, -1, -1, -1, -1, -1, -1, -1, -1, -1, -1,
  -1, -1, -1, -1, -1, -1, -1, -1, -1, -1, -1, -1, -1,
  -1, -1, -1, -1, -1,  3,  4,  5, -1, -1, -1, -1, -1,
  -1, -1, -1, -1, -1, 12, 13, 14, -1, -1, -1, -1, -1,
  -1, -1, -1, -1, -1, 21, 22, 23, -1, -1, -1, -1, -1,
  -1, -1, -1, -1, -1, -1, -1, -1, -1, -1, -1, -1, -1,
  -1, -1, -1, -1, -1, -1, -1, -1, -1, -1, -1, -1, -1,
  -1, -1, -1, -1, -1, -1, -1, -1, -1, -1, -1, -1, -1,
  -1, -1, -1, -1, -1, -1, -1, -1, -1, -1, -1, -1, -1,
  -1, -1, -1, -1, -1, 66, 67, 68, -1, -1, -1, -1, -1,
  -1, -1, -1, -1, -1, 75, 76, 77, -1, -1, -1, -1, -1,
  -1, -1, -1, -1, -1, 84, 85, 86, -1, -1, -1, -1, -1,
  -1, -1, -1, -1, -1, -1, -1, -1, -1, -1, -1, -1, -1,
  -1, -1, -1, -1, -1, -1, -1, -1, -1, -1, -1, -1, -1]

/-- `map_whitehalf` -/
def mapWhitehalfTable : List Int := [
  -1, -1, -1, -1, -1, -1, -1, -1, -1, -1, -1, -1, -1,
  -1, -1, -1, -1, -1, -1, -1, -1, -1, -1, -1, -1, -1,
  -1, -1,  0,  1,  2,  3,  4,  5,  6,  7,  8, -1, -1,
  -1, -1,  9, 10, 11, 12, 13, 14, 15, 16, 17, -1, -1,
  -1, -1, 18, 19, 20, 21, 22, 23, 24, 25, 26, -1, -1,
  -1, -1, 27, 28, 29, 30, 31, 32, 33, 34, 35, -1, -1,
  -1, -1, 36, 37, 38, 39, 40, 41, 42, 43, 44, -1, -1,
  -1, -1, -1, -1, -1, -1, -1, -1, -1, -1, -1, -1, -1,
  -1, -1, -1, -1, -1, -1, -1, -1, -1, -1, -1, -1, -1,
  -1, -1, -1, -1, -1, -1, -1, -1, -1, -1, -1, -1, -1,
  -1, -1, -1, -1, -1, -1, -1, -1, -1, -1, -1, -1, -1,
  -1, -1, -1, -1, -1, -1, -1, -1, -1, -1, -1, -1, -1,
  -1, -1, -1, -1, -1, -1, -1, -1, -1, -1, -1, -1, -1,
  -1, -1, -1, -1, -1, -1, -1, -1, -1, -1, -1, -1, -1]

/-- `map_blackhalf` -/
def mapBlackhalfTable : List Int := [
  -1, -1, -1, -1, -1, -1, -1, -1, -1, -1, -1, -1, -1,
  -1, -1, -1, -1, -1, -1, -1, -1, -1, -1, -1, -1, -1,
  -1, -1, -1, -1, -1, -1, -1, -1, -1, -1, -1, -1, -1,
  -1, -1, -1, -1, -1, -1, -1, -1, -1, -1, -1, -1, -1,
  -1, -1, -1, -1, -1, -1, -1, -1, -1, -1, -1, -1, -1,
  -1, -1, -1, -1, -1, -1, -1, -1, -1, -1, -1, -1, -1,
  -1, -1, -1, -1, -1, -1, -1, -1, -1, -1, -1, -1, -1,
  -1, -1, 45, 46, 47, 48, 49, 50, 51, 52, 53, -1, -1,
  -1, -1, 54, 55, 56, 57, 58, 59, 60, 61, 62, -1, -1,
  -1, -1, 63, 64, 65, 66, 67, 68, 69, 70, 71, -1, -1,
  -1, -1, 72, 73, 74, 75, 76, 77, 78, 79, 80, -1, -1,
  -1, -1, 81, 82, 83, 84, 85, 86, 87, 88, 89, -1, -1,
  -1, -1, -1, -1, -1, -1, -1, -1, -1, -1, -1, -1, -1,
  -1, -1, -1, -1, -1, -1, -1, -1, -1, -1, -1, -1, -1]

/-- A cell of one of the tables; -1 and what is not in the table is no square. -/
def lookup (table : List Int) (t : Int) : Option Square :=
  if t < 0 then none
  else
    match table[t.toNat]? with
    | none => none
    | some v => if h : 0 ≤ v ∧ v < 90 then some ⟨v.toNat, toNat_lt_squares h⟩ else none

/-- `invmap[from]` -/
def invmap (sq : Square) : Int := invmapTable.getD sq.val 0

/-! ## The tables on the coordinate board -/

/-- The palace of a side. -/
def InPalace (c : Color) (sq : Square) : Prop :=
  (3 ≤ fil sq ∧ fil sq ≤ 5) ∧
    match c with
    | .white => rnk sq ≤ 2
    | .black => 7 ≤ rnk sq

/-- The side's half of the board. -/
def OnHalf (c : Color) (sq : Square) : Prop :=
  match c with
  | .white => rnk sq ≤ 4
  | .black => 5 ≤ rnk sq

instance (c : Color) (sq : Square) : Decidable (InPalace c sq) := by
  unfold InPalace; cases c <;> infer_instance

instance (c : Color) (sq : Square) : Decidable (OnHalf c sq) := by
  unfold OnHalf; cases c <;> infer_instance

/-- `map_whitehalf` and `map_blackhalf`. -/
def mapHalfTable : Color → List Int
  | .white => mapWhitehalfTable
  | .black => mapBlackhalfTable

/-- The cells of the board with a margin of two. -/
def cellAt (i j : Int) : Int := 28 + 13 * j + i

/-- All tables at once, at a cell given by file and rank. -/
def TablesAt (i j : Int) : Prop :=
  lookup mapTable (cellAt i j) = cell i j ∧
    lookup mapPalaceTable (cellAt i j) =
      (cell i j).filter (fun sq : Square => InPalace .white sq ∨ InPalace .black sq) ∧
    ∀ c, lookup (mapHalfTable c) (cellAt i j) = (cell i j).filter (fun sq : Square => OnHalf c sq)

instance (i j : Int) : Decidable (TablesAt i j) := by
  unfold TablesAt; infer_instance

theorem tables_all : ∀ i : Fin 13, ∀ j : Fin 14, TablesAt ((i.val : Int) - 2) ((j.val : Int) - 2) := by
  decide +kernel

theorem tablesAt {i j : Int} (hi : -2 ≤ i ∧ i ≤ 10) (hj : -2 ≤ j ∧ j ≤ 11) : TablesAt i j := by
  have h := tables_all ⟨(i + 2).toNat, by omega⟩ ⟨(j + 2).toNat, by omega⟩
  have h1 : (((i + 2).toNat : Nat) : Int) - 2 = i := by omega
  have h2 : (((j + 2).toNat : Nat) : Int) - 2 = j := by omega
  simp only [h1, h2] at h
  exact h

theorem invmap_eq : ∀ sq : Square, invmap sq = cellAt (fil sq) (rnk sq) := by decide

end HoiChess.Xiangqi
