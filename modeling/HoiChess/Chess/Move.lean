import HoiChess.Chess.Bitboard

/-!
# Moves

A move is one packed 32-bit word: bits 0-5 hold the origin, 6-11 the
destination, 12-14 the moving piece or the piece a pawn promotes to, 15-17
the captured piece and the rest the flags.  `Move.pack` is the private
constructor of the source and the factories are its only uses.  Reading a
packed word gives back what was packed (`fromSq_pack` and its companions),
so two factory calls agree only if their arguments do.
-/

namespace HoiChess.Chess

/-- `PAWN = 0, .., KING = 5` and `NO_PIECE = -1`, as a 32-bit `int`. -/
def pieceCode : Option Piece → BitVec 32
  | none => BitVec.ofInt 32 (-1)
  | some .pawn => 0
  | some .knight => 1
  | some .bishop => 2
  | some .rook => 3
  | some .queen => 4
  | some .king => 5

/-- The piece with a given code; 6 and 7 are the codes of no piece. -/
def pieceOfCode (n : Nat) : Option Piece :=
  match n with
  | 0 => some .pawn
  | 1 => some .knight
  | 2 => some .bishop
  | 3 => some .rook
  | 4 => some .queen
  | 5 => some .king
  | _ => none

/-- A square number, or `NO_SQUARE = -1`, as a 32-bit `int`. -/
def squareCode : Option Square → BitVec 32
  | none => BitVec.ofInt 32 (-1)
  | some sq => BitVec.ofNat 32 sq.val

structure Move where
  mov : BitVec 32
  deriving DecidableEq, Repr

namespace Move

abbrev moveNormal : BitVec 16 := 0x001#16
abbrev moveCapture : BitVec 16 := 0x002#16
abbrev movePromotion : BitVec 16 := 0x004#16
abbrev moveEnpassant : BitVec 16 := 0x008#16
abbrev moveCastle : BitVec 16 := 0x010#16
abbrev moveNull : BitVec 16 := 0x020#16

/-- `Move(from, to, ptype, cap_ptype, flags)` -/
def pack (src dst : Option Square) (ptype capPtype : Option Piece) (flags : BitVec 16) : Move :=
  ⟨(squareCode src &&& 0x3f#32) ||| ((squareCode dst &&& 0x3f#32) <<< 6) |||
    ((pieceCode ptype &&& 0x7#32) <<< 12) ||| ((pieceCode capPtype &&& 0x7#32) <<< 15) |||
    (flags.setWidth 32 <<< 18)⟩

/-- `NO_MOVE`: the word zero. -/
def noMove : Move := ⟨0#32⟩

/-! ## Accessors -/

def fromSq (m : Move) : Square := Fin.ofNat 64 (m.mov &&& 0x3f#32).toNat

def toSq (m : Move) : Square := Fin.ofNat 64 ((m.mov >>> 6) &&& 0x3f#32).toNat

def flags (m : Move) : BitVec 16 := (m.mov >>> 18).setWidth 16

def hasFlag (m : Move) (f : BitVec 16) : Bool := m.flags &&& f != 0#16

def ptype (m : Move) : Option Piece :=
  if m.hasFlag movePromotion then some .pawn
  else pieceOfCode ((m.mov >>> 12) &&& 0x7#32).toNat

def promoteTo (m : Move) : Option Piece := pieceOfCode ((m.mov >>> 12) &&& 0x7#32).toNat

def capPtype (m : Move) : Option Piece := pieceOfCode ((m.mov >>> 15) &&& 0x7#32).toNat

def isNormal (m : Move) : Bool := m.hasFlag moveNormal
def isCapture (m : Move) : Bool := m.hasFlag moveCapture
def isEnpassant (m : Move) : Bool := m.hasFlag moveEnpassant
def isPromotion (m : Move) : Bool := m.hasFlag movePromotion
def isCastle (m : Move) : Bool := m.hasFlag moveCastle
def isNull (m : Move) : Bool := m.hasFlag moveNull

def isIrreversible (m : Move) : Bool := m.ptype == some .pawn || m.isCapture || m.isCastle

/-! ## Factories -/

abbrev normal (src dst : Square) (ptype : Option Piece) : Move :=
  pack (some src) (some dst) ptype none moveNormal

abbrev capture (src dst : Square) (ptype capPtype : Option Piece) : Move :=
  pack (some src) (some dst) ptype capPtype moveCapture

abbrev enpassant (src dst : Square) : Move :=
  pack (some src) (some dst) (some .pawn) (some .pawn) moveEnpassant

abbrev promotion (src dst : Square) (promote : Option Piece) : Move :=
  pack (some src) (some dst) promote none (movePromotion ||| moveNormal)

abbrev promotionCapture (src dst : Square) (promote capPtype : Option Piece) : Move :=
  pack (some src) (some dst) promote capPtype (movePromotion ||| moveCapture)

abbrev castle (src dst : Square) : Move :=
  pack (some src) (some dst) (some .king) none moveCastle

abbrev null : Move := pack none none none none moveNull

/-! ## Reading back a packed word -/

private theorem or_shift (a b n : Nat) (h : a < 2 ^ n) : a ||| (b <<< n) = a + b * 2 ^ n := by
  rw [Nat.or_comm, ← Nat.shiftLeft_add_eq_or_of_lt h, Nat.shiftLeft_eq, Nat.add_comm]

theorem pieceCode_masked (p : Option Piece) : (pieceCode p &&& 0x7#32).toNat < 8 := by
  cases p with
  | none => decide
  | some p => cases p <;> decide

theorem squareCode_masked (sq : Option Square) : (squareCode sq &&& 0x3f#32).toNat < 64 := by
  rw [BitVec.toNat_and]
  exact Nat.lt_of_le_of_lt Nat.and_le_right (by decide)

theorem squareCode_some (sq : Square) : (squareCode (some sq) &&& 0x3f#32).toNat = sq.val := by
  have h := sq.isLt
  rw [BitVec.toNat_and, squareCode, BitVec.toNat_ofNat, Nat.mod_eq_of_lt (by omega)]
  change sq.val &&& (2 ^ 6 - 1) = sq.val
  rw [Nat.and_two_pow_sub_one_eq_mod]
  omega

/-- The packed word as a number in mixed radix. -/
theorem toNat_pack (src dst : Option Square) (p c : Option Piece) (fl : BitVec 16)
    (hfl : fl.toNat < 2 ^ 14) :
    (pack src dst p c fl).mov.toNat =
      (squareCode src &&& 0x3f#32).toNat + (squareCode dst &&& 0x3f#32).toNat * 2 ^ 6 +
        (pieceCode p &&& 0x7#32).toNat * 2 ^ 12 + (pieceCode c &&& 0x7#32).toNat * 2 ^ 15 +
        fl.toNat * 2 ^ 18 := by
  have hs := squareCode_masked src
  have hd := squareCode_masked dst
  have hp := pieceCode_masked p
  have hc := pieceCode_masked c
  have shl : ∀ (x : BitVec 32) (n : Nat), x.toNat * 2 ^ n < 2 ^ 32 →
      (x <<< n).toNat = x.toNat <<< n := by
    intro x n h
    rw [BitVec.toNat_shiftLeft, Nat.mod_eq_of_lt (by rwa [Nat.shiftLeft_eq])]
  have hflw : (fl.setWidth 32).toNat = fl.toNat := by
    rw [BitVec.toNat_setWidth, Nat.mod_eq_of_lt (by omega)]
  unfold pack
  simp only [BitVec.toNat_or]
  rw [shl _ 6 (by omega), shl _ 12 (by omega), shl _ 15 (by omega), shl _ 18 (by omega), hflw,
    or_shift _ _ 6 (by omega), or_shift _ _ 12 (by omega), or_shift _ _ 15 (by omega),
    or_shift _ _ 18 (by omega)]

section Fields

variable (m : Move)

theorem fromSq_val : m.fromSq.val = m.mov.toNat % 2 ^ 6 := by
  have : (m.mov &&& 0x3f#32).toNat = m.mov.toNat % 2 ^ 6 := by
    rw [BitVec.toNat_and]
    exact Nat.and_two_pow_sub_one_eq_mod _ 6
  simp only [fromSq, this, Fin.ofNat]
  omega

theorem toSq_val : m.toSq.val = m.mov.toNat / 2 ^ 6 % 2 ^ 6 := by
  have : ((m.mov >>> 6) &&& 0x3f#32).toNat = m.mov.toNat / 2 ^ 6 % 2 ^ 6 := by
    rw [BitVec.toNat_and, BitVec.toNat_ushiftRight, Nat.shiftRight_eq_div_pow]
    exact Nat.and_two_pow_sub_one_eq_mod _ 6
  simp only [toSq, this, Fin.ofNat]
  omega

theorem code12 : ((m.mov >>> 12) &&& 0x7#32).toNat = m.mov.toNat / 2 ^ 12 % 2 ^ 3 := by
  rw [BitVec.toNat_and, BitVec.toNat_ushiftRight, Nat.shiftRight_eq_div_pow]
  exact Nat.and_two_pow_sub_one_eq_mod _ 3

theorem code15 : ((m.mov >>> 15) &&& 0x7#32).toNat = m.mov.toNat / 2 ^ 15 % 2 ^ 3 := by
  rw [BitVec.toNat_and, BitVec.toNat_ushiftRight, Nat.shiftRight_eq_div_pow]
  exact Nat.and_two_pow_sub_one_eq_mod _ 3

theorem flags_toNat : m.flags.toNat = m.mov.toNat / 2 ^ 18 := by
  have h := m.mov.isLt
  rw [flags, BitVec.toNat_setWidth, BitVec.toNat_ushiftRight, Nat.shiftRight_eq_div_pow]
  exact Nat.mod_eq_of_lt (by omega)

end Fields

theorem pieceOfCode_pieceCode (p : Option Piece) :
    pieceOfCode (pieceCode p &&& 0x7#32).toNat = p := by
  cases p with
  | none => decide
  | some p => cases p <;> decide

section Pack

variable (src dst : Square) (p c : Option Piece) (fl : BitVec 16)

theorem fromSq_pack (h : fl.toNat < 2 ^ 14) :
    (pack (some src) (some dst) p c fl).fromSq = src := by
  apply Fin.ext
  have := src.isLt
  rw [fromSq_val, toNat_pack _ _ _ _ _ h, squareCode_some, squareCode_some]
  omega

theorem toSq_pack (h : fl.toNat < 2 ^ 14) :
    (pack (some src) (some dst) p c fl).toSq = dst := by
  apply Fin.ext
  have := src.isLt
  have := dst.isLt
  rw [toSq_val, toNat_pack _ _ _ _ _ h, squareCode_some, squareCode_some]
  omega

theorem promoteTo_pack (h : fl.toNat < 2 ^ 14) :
    (pack (some src) (some dst) p c fl).promoteTo = p := by
  have := src.isLt
  have := dst.isLt
  have := pieceCode_masked p
  rw [promoteTo, code12, toNat_pack _ _ _ _ _ h, squareCode_some, squareCode_some]
  refine Eq.trans (congrArg pieceOfCode ?_) (pieceOfCode_pieceCode p)
  omega

theorem capPtype_pack (h : fl.toNat < 2 ^ 14) :
    (pack (some src) (some dst) p c fl).capPtype = c := by
  have := src.isLt
  have := dst.isLt
  have := pieceCode_masked p
  have := pieceCode_masked c
  rw [capPtype, code15, toNat_pack _ _ _ _ _ h, squareCode_some, squareCode_some]
  refine Eq.trans (congrArg pieceOfCode ?_) (pieceOfCode_pieceCode c)
  omega

theorem flags_pack (src dst : Option Square) (h : fl.toNat < 2 ^ 14) :
    (pack src dst p c fl).flags = fl := by
  have := squareCode_masked src
  have := squareCode_masked dst
  have := pieceCode_masked p
  have := pieceCode_masked c
  apply BitVec.eq_of_toNat_eq
  rw [flags_toNat, toNat_pack _ _ _ _ _ h]
  omega

theorem ptype_pack (h : fl.toNat < 2 ^ 14) :
    (pack (some src) (some dst) p c fl).ptype =
      if fl &&& movePromotion != 0#16 then some .pawn else p := by
  have h' := promoteTo_pack src dst p c fl h
  unfold promoteTo at h'
  rw [ptype, hasFlag, flags_pack p c fl _ _ h, h']

end Pack

end Move

end HoiChess.Chess
