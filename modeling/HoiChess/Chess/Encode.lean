import HoiChess.Chess.Sane
import HoiChess.Chess.Move

/-!
# Moves of the rules as move words

`Ply.encode` builds, with the factories of `Move`, the word for a move of the
rules.  Every accessor of the word gives back the corresponding part of the
ply, so the encoding is injective.
-/

namespace HoiChess.Chess.Rules.Ply

open Move

def encode : Ply → Move
  | move src dst p none => .normal src dst (some p)
  | move src dst p (some q) => .capture src dst (some p) (some q)
  | promote src dst p none => .promotion src dst (some p)
  | promote src dst p (some q) => .promotionCapture src dst (some p) (some q)
  | enpassant src dst => .enpassant src dst
  | castle f => .castle f.kingHome f.kingDest

/-- The flags of the factory that `encode` uses. -/
def flagBits : Ply → BitVec 16
  | move _ _ _ none => moveNormal
  | move _ _ _ (some _) => moveCapture
  | promote _ _ _ none => movePromotion ||| moveNormal
  | promote _ _ _ (some _) => movePromotion ||| moveCapture
  | enpassant _ _ => moveEnpassant
  | castle _ => moveCastle

/-- The piece in bits 12-14: the new piece of a promotion, else the moving piece. -/
def codedPiece : Ply → Piece
  | move _ _ p _ | promote _ _ p _ => p
  | enpassant _ _ => .pawn
  | castle _ => .king

theorem encode_eq_pack (ply : Ply) :
    ply.encode = pack (some ply.src) (some ply.dst) (some ply.codedPiece) ply.captured
      ply.flagBits := by
  cases ply with
  | move src dst p cap => cases cap <;> rfl
  | promote src dst p cap => cases cap <;> rfl
  | enpassant src dst => rfl
  | castle f => rfl

theorem flagBits_lt (ply : Ply) : ply.flagBits.toNat < 2 ^ 14 := by
  cases ply with
  | move src dst p cap => cases cap <;> simp [flagBits]
  | promote src dst p cap => cases cap <;> simp [flagBits]
  | enpassant src dst => simp [flagBits]
  | castle f => simp [flagBits]

section Accessors

variable (ply : Ply)

@[simp] theorem fromSq_encode : ply.encode.fromSq = ply.src := by
  rw [encode_eq_pack, fromSq_pack _ _ _ _ _ ply.flagBits_lt]

@[simp] theorem toSq_encode : ply.encode.toSq = ply.dst := by
  rw [encode_eq_pack, toSq_pack _ _ _ _ _ ply.flagBits_lt]

@[simp] theorem capPtype_encode : ply.encode.capPtype = ply.captured := by
  rw [encode_eq_pack, capPtype_pack _ _ _ _ _ ply.flagBits_lt]

@[simp] theorem promoteTo_encode : ply.encode.promoteTo = some ply.codedPiece := by
  rw [encode_eq_pack, promoteTo_pack _ _ _ _ _ ply.flagBits_lt]

theorem flags_encode : ply.encode.flags = ply.flagBits := by
  rw [encode_eq_pack, flags_pack _ _ _ _ _ ply.flagBits_lt]

theorem hasFlag_encode (fl : BitVec 16) : ply.encode.hasFlag fl = (ply.flagBits &&& fl != 0#16) := by
  rw [hasFlag, flags_encode]

def isPromote : Ply → Bool
  | promote _ _ _ _ => true
  | _ => false

def isEp : Ply → Bool
  | enpassant _ _ => true
  | _ => false

def isCastling : Ply → Bool
  | castle _ => true
  | _ => false

/-- The flag bits of the factories are what the predicates of `Move` test. -/
theorem flagBits_table :
    ((ply.flagBits &&& movePromotion != 0#16) = ply.isPromote ∧
      (ply.flagBits &&& moveEnpassant != 0#16) = ply.isEp ∧
      (ply.flagBits &&& moveCastle != 0#16) = ply.isCastling) ∧
    (ply.flagBits &&& moveCapture != 0#16) = (ply.captured.isSome && !ply.isEp) ∧
    (ply.flagBits &&& moveNormal != 0#16) = (ply.captured.isNone && !ply.isCastling) ∧
    (ply.flagBits &&& moveNull != 0#16) = false := by
  rcases ply with ⟨_, _, _, _ | _⟩ | ⟨_, _, _, _ | _⟩ | _ | _ <;>
    simp only [flagBits, isPromote, isEp, isCastling, captured, Option.isSome_none, Option.isSome_some,
      Option.isNone_none, Option.isNone_some] <;>
    decide

@[simp] theorem isPromotion_encode : ply.encode.isPromotion = ply.isPromote := by
  rw [Move.isPromotion, hasFlag_encode, ply.flagBits_table.1.1]

@[simp] theorem isEnpassant_encode : ply.encode.isEnpassant = ply.isEp := by
  rw [Move.isEnpassant, hasFlag_encode, ply.flagBits_table.1.2.1]

@[simp] theorem isCastle_encode : ply.encode.isCastle = ply.isCastling := by
  rw [Move.isCastle, hasFlag_encode, ply.flagBits_table.1.2.2]

@[simp] theorem isCapture_encode :
    ply.encode.isCapture = (ply.captured.isSome && !ply.isEp) := by
  rw [Move.isCapture, hasFlag_encode, ply.flagBits_table.2.1]

@[simp] theorem isNormal_encode :
    ply.encode.isNormal = (ply.captured.isNone && !ply.isCastling) := by
  rw [Move.isNormal, hasFlag_encode, ply.flagBits_table.2.2.1]

@[simp] theorem isNull_encode : ply.encode.isNull = false := by
  rw [Move.isNull, hasFlag_encode, ply.flagBits_table.2.2.2]

@[simp] theorem ptype_encode : ply.encode.ptype = some ply.piece := by
  change (if ply.encode.isPromotion = true then some Piece.pawn else ply.encode.promoteTo) = _
  rw [isPromotion_encode, promoteTo_encode]
  cases ply <;> rfl

end Accessors

theorem encode_injective {p q : Ply} (h : p.encode = q.encode) : p = q := by
  have h1 : p.src = q.src := by rw [← fromSq_encode, h, fromSq_encode]
  have h2 : p.dst = q.dst := by rw [← toSq_encode, h, toSq_encode]
  have h3 : p.codedPiece = q.codedPiece := by
    have := congrArg Move.promoteTo h
    rwa [promoteTo_encode, promoteTo_encode, Option.some.injEq] at this
  have h4 : p.captured = q.captured := by rw [← capPtype_encode, h, capPtype_encode]
  have h5 : p.isPromote = q.isPromote := by rw [← isPromotion_encode, h, isPromotion_encode]
  have h6 : p.isEp = q.isEp := by rw [← isEnpassant_encode, h, isEnpassant_encode]
  have h7 : p.isCastling = q.isCastling := by rw [← isCastle_encode, h, isCastle_encode]
  cases p <;> cases q <;> first | (cases h5; done) | (cases h6; done) | (cases h7; done) | skip
  · cases h1; cases h2; cases h3; cases h4; rfl
  · cases h1; cases h2; cases h3; cases h4; rfl
  · cases h1; cases h2; rfl
  · rename_i f g
    cases f <;> cases g <;> first | rfl | exact absurd h2 (by decide)

end HoiChess.Chess.Rules.Ply
