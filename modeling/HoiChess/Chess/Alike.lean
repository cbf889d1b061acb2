import HoiChess.Chess.ParseMove
import HoiChess.Chess.San

/-!
# Boards that differ in what they count

Move numbers, material, who has castled, how often a man has moved and the hash keys are kept
along with the men, but neither the generator nor the printers and parsers of moves look at
them.  Two boards that agree in everything else are alike (`Board.Alike`): they list the same
legal moves, print them alike and read them alike, and they stay alike when a move is made
(`Alike.makeMove`).
-/

namespace HoiChess.Chess

/-- What a board counts. -/
structure Tally where
  moveno : Int
  movecnt50 : Int
  material : PerColor Int
  hasCastled : PerColor Bool
  pceMovecnt : Vector (BitVec 32) 64
  hashkey : Hashkey
  pawnhashkey : Hashkey

namespace Board

def withTally (b : Board) (t : Tally) : Board :=
  { b with
    moveno := t.moveno
    movecnt50 := t.movecnt50
    material := t.material
    hasCastled := t.hasCastled
    pceMovecnt := t.pceMovecnt
    hashkey := t.hashkey
    pawnhashkey := t.pawnhashkey }

/-- The boards differ at most in what they count. -/
def Alike (b b' : Board) : Prop := ∃ t, b' = b.withTally t

theorem Alike.refl (b : Board) : b.Alike b :=
  ⟨⟨b.moveno, b.movecnt50, b.material, b.hasCastled, b.pceMovecnt, b.hashkey, b.pawnhashkey⟩, rfl⟩

variable {b b' b'' : Board}

theorem Alike.symm (h : b.Alike b') : b'.Alike b := by
  obtain ⟨t, rfl⟩ := h
  exact Alike.refl b

theorem Alike.trans (h : b.Alike b') (h' : b'.Alike b'') : b.Alike b'' := by
  obtain ⟨t, rfl⟩ := h
  obtain ⟨t', rfl⟩ := h'
  exact ⟨t', rfl⟩

/-- A board that is read has no history. -/
theorem Alike.withoutHistory (h : b.Alike b') (v : Int) : b.Alike { b' with
    moveno := v
    hasCastled := .both false
    pceMovecnt := Vector.replicate 64 0#32 } := by
  obtain ⟨t, rfl⟩ := h
  exact ⟨{ t with
    moveno := v
    hasCastled := .both false
    pceMovecnt := Vector.replicate 64 0#32 }, rfl⟩

/-- They stand for the same position. -/
theorem Alike.abs (h : b.Alike b') : b'.abs = b.abs := by
  obtain ⟨t, rfl⟩ := h
  rfl

theorem Alike.side (h : b.Alike b') : b'.side = b.side := by
  obtain ⟨t, rfl⟩ := h
  rfl

/-! ## What does not depend on the counts -/

section Tests

variable (h : b.Alike b')

include h

theorem Alike.inCheck : b'.inCheck = b.inCheck := by
  obtain ⟨t, rfl⟩ := h
  rfl

theorem Alike.isLegal : b'.isLegal = b.isLegal := by
  obtain ⟨t, rfl⟩ := h
  rfl

theorem Alike.isValid : b'.isValid = b.isValid := by
  obtain ⟨t, rfl⟩ := h
  rfl

theorem Alike.generateMoves [Build] (allpromo : Bool) (ml : Movelist) :
    b'.generateMoves allpromo ml = b.generateMoves allpromo ml := by
  obtain ⟨t, rfl⟩ := h
  rfl

theorem Alike.isValidMove (mov : Move) : b'.isValidMove mov = b.isValidMove mov := by
  obtain ⟨t, rfl⟩ := h
  rfl

theorem Alike.doParseMove1 [Build] (s : List Char) : b'.doParseMove1 s = b.doParseMove1 s := by
  obtain ⟨t, rfl⟩ := h
  rfl

theorem Alike.moveOps (mov : Move) : b'.moveOps mov = b.moveOps mov := by
  obtain ⟨t, rfl⟩ := h
  rfl

end Tests

/-! ## Making a move -/

section Steps

variable [Build]

theorem Alike.exec (h : b.Alike b') (op : PieceOp) : (op.exec b).Alike (op.exec b') := by
  obtain ⟨t, rfl⟩ := h
  cases op with
  | place sq c p => exact ⟨⟨_, _, _, _, _, _, _⟩, rfl⟩
  | remove sq c p => exact ⟨⟨_, _, _, _, _, _, _⟩, rfl⟩
  | move src dst c p => exact ⟨⟨_, _, _, _, _, _, _⟩, rfl⟩

theorem Alike.runOps (h : b.Alike b') (ops : List PieceOp) :
    (b.runOps ops).Alike (b'.runOps ops) := by
  induction ops generalizing b b' with
  | nil => exact h
  | cons op ops ih => exact ih (h.exec op)

omit [Build] in
theorem Alike.setCastled (h : b.Alike b') (mov : Move) :
    (b.setCastled mov).Alike (b'.setCastled mov) := by
  obtain ⟨t, rfl⟩ := h
  unfold Board.setCastled
  split
  · exact ⟨⟨_, _, _, _, _, _, _⟩, rfl⟩
  · exact ⟨t, rfl⟩

theorem Alike.clearFlag (h : b.Alike b') (f : CastleFlag) :
    (b.clearFlag f).Alike (b'.clearFlag f) := by
  obtain ⟨t, rfl⟩ := h
  have hflag : (b.withTally t).hasFlag f = b.hasFlag f := rfl
  unfold Board.clearFlag
  rw [hflag]
  split
  · exact ⟨⟨_, _, _, _, _, _, _⟩, rfl⟩
  · exact ⟨t, rfl⟩

theorem Alike.clearCorner (h : b.Alike b') (sq : Square) :
    (b.clearCorner sq).Alike (b'.clearCorner sq) := by
  unfold Board.clearCorner
  split
  · exact h
  · exact h.clearFlag _

theorem Alike.clearCastling (h : b.Alike b') (mov : Move) :
    (b.clearCastling mov).Alike (b'.clearCastling mov) := by
  have hking : Alike (if mov.ptype = some .king then
        if b.side = .white then (b.clearFlag .wk).clearFlag .wq
        else (b.clearFlag .bk).clearFlag .bq else b)
      (if mov.ptype = some .king then
        if b'.side = .white then (b'.clearFlag .wk).clearFlag .wq
        else (b'.clearFlag .bk).clearFlag .bq else b') := by
    rw [h.side]
    split
    · split
      · exact (h.clearFlag .wk).clearFlag .wq
      · exact (h.clearFlag .bk).clearFlag .bq
    · exact h
  unfold Board.clearCastling
  simp only
  generalize (if mov.ptype = some .king then
        if b.side = .white then (b.clearFlag .wk).clearFlag .wq
        else (b.clearFlag .bk).clearFlag .bq else b) = c at hking ⊢
  generalize (if mov.ptype = some .king then
        if b'.side = .white then (b'.clearFlag .wk).clearFlag .wq
        else (b'.clearFlag .bk).clearFlag .bq else b') = c' at hking ⊢
  have hrook : Alike (if mov.ptype = some .rook then c.clearCorner mov.fromSq else c)
      (if mov.ptype = some .rook then c'.clearCorner mov.fromSq else c') := by
    split
    · exact hking.clearCorner _
    · exact hking
  split
  · exact hrook.clearCorner _
  · exact hrook

theorem Alike.updateEpsq (h : b.Alike b') (mov : Move) :
    (b.updateEpsq mov).Alike (b'.updateEpsq mov) := by
  obtain ⟨t, rfl⟩ := h
  have hset : ∀ e, (b.setEpsq e).Alike ((b.withTally t).setEpsq e) :=
    fun e => ⟨⟨_, _, _, _, _, _, _⟩, rfl⟩
  have hclear : b.clearEpsq.Alike (b.withTally t).clearEpsq := ⟨⟨_, _, _, _, _, _, _⟩, rfl⟩
  unfold Board.updateEpsq
  split
  · split
    · exact hset _
    split
    · exact hset _
    · exact hclear
  · exact hclear

theorem Alike.updateCounters (h : b.Alike b') (mov : Move) :
    (b.updateCounters mov).Alike (b'.updateCounters mov) := by
  obtain ⟨t, rfl⟩ := h
  exact ⟨⟨_, _, _, _, _, _, _⟩, rfl⟩

/-- **A move keeps boards alike.** -/
theorem Alike.makeMove (h : b.Alike b') (mov : Move) : (b.makeMove mov).Alike (b'.makeMove mov) := by
  unfold Board.makeMove
  rw [h.moveOps]
  exact ((((h.runOps _).setCastled mov).clearCastling mov).updateEpsq mov).updateCounters mov

/-! ## Legal moves, printing and reading -/

variable (h : b.Alike b')

include h

theorem Alike.isLegalMove (mov : Move) : b'.isLegalMove mov = b.isLegalMove mov :=
  (h.makeMove mov).isLegal

theorem Alike.legalMoves : b'.legalMoves = b.legalMoves := by
  unfold Board.legalMoves Board.filterIllegal
  rw [h.generateMoves, funext h.isLegalMove]

theorem Alike.isMate : b'.isMate = b.isMate := by
  unfold Board.isMate
  rw [h.inCheck, h.legalMoves]

/-- **Boards that are alike print a move alike.** -/
theorem Alike.san (mov : Move) (nonstd : Nat) : mov.san b' nonstd = mov.san b nonstd := by
  have hrivals : mov.rivals b' = mov.rivals b := by
    unfold Move.rivals
    rw [h.legalMoves]
  have hhead : mov.sanHead b' nonstd = mov.sanHead b nonstd := by
    unfold Move.sanHead Move.disambFile Move.disambRank
    rw [hrivals]
  have hcheck : mov.sanCheck b' nonstd = mov.sanCheck b nonstd := by
    unfold Move.sanCheck
    rw [(h.makeMove mov).inCheck, (h.makeMove mov).isMate]
  unfold Move.san
  rw [hhead, hcheck]

/-- **And read a text alike.** -/
theorem Alike.parseMove1 (s : List Char) : b'.parseMove1 s = b.parseMove1 s := by
  unfold Board.parseMove1
  simp only [h.doParseMove1, h.isValidMove, h.isLegalMove]

end Steps

end Board

end HoiChess.Chess
