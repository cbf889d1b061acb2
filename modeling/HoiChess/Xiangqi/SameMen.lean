import HoiChess.Xiangqi.Generate

/-!
# Boards with the same men

Attacks, the move list, and whether a king is attacked depend on the men and the side to move; the
walk between the kings and `in_check` on the squares of the kings besides (`Same.inCheck`).
-/

namespace HoiChess.Xiangqi

open Chess (Color PerColor)

/-- The men, the squares of the kings and the side to move are the same. -/
structure Board.Same (b b' : Board) : Prop where
  pieces : b.positionPieces = b'.positionPieces
  colors : b.positionColors = b'.positionColors
  king : b.king = b'.king
  side : b.side = b'.side

instance (b b' : Board) : Decidable (b.Same b') :=
  decidable_of_iff (b.positionPieces = b'.positionPieces ∧ b.positionColors = b'.positionColors ∧
      b.king = b'.king ∧ b.side = b'.side)
    ⟨fun ⟨h1, h2, h3, h4⟩ => ⟨h1, h2, h3, h4⟩, fun h => ⟨h.pieces, h.colors, h.king, h.side⟩⟩

section Same

variable {b b' : Board}

theorem cannonCapture_congr (h : b.positionColors = b'.positionColors) (c : Color) (d : Int)
    (fuel : Nat) (t : Int) : b.cannonCapture c d fuel t = b'.cannonCapture c d fuel t := by
  induction fuel generalizing t with
  | zero => rfl
  | succ fuel ih => simp only [Board.cannonCapture, Board.colorAt, h, ih]

theorem cannonLoop_congr (h : b.positionColors = b'.positionColors) (c : Color) (d : Int)
    (fuel : Nat) (t : Int) : b.cannonLoop c d fuel t = b'.cannonLoop c d fuel t := by
  induction fuel generalizing t with
  | zero => rfl
  | succ fuel ih =>
    simp only [Board.cannonLoop, Board.colorAt, h, ih, cannonCapture_congr h]

theorem rookLoop_congr (h : b.positionColors = b'.positionColors) (d : Int) (fuel : Nat) (t : Int) :
    b.rookLoop d fuel t = b'.rookLoop d fuel t := by
  induction fuel generalizing t with
  | zero => rfl
  | succ fuel ih => simp only [Board.rookLoop, Board.colorAt, h, ih]

theorem attacks_congr (h : b.positionColors = b'.positionColors) (p : Piece) (src : Square)
    (c : Color) : b.attacks p src c = b'.attacks p src c := by
  have hjump : ∀ table, b.jump table src = b'.jump table src := by
    intro table
    funext d
    simp only [Board.jump, Board.colorAt, h]
  cases p with
  | pawn | guard | king => rfl
  | elephant => simp only [Board.attacks, Board.elephantAttacks, hjump]
  | knight => simp only [Board.attacks, Board.knightAttacks, hjump]
  | cannon => simp only [Board.attacks, Board.cannonAttacks, cannonLoop_congr h]
  | rook => simp only [Board.attacks, Board.rookAttacks, rookLoop_congr h]

/-- **The move list depends on the men and the side to move.** -/
theorem generateMoves_congr (hp : b.positionPieces = b'.positionPieces)
    (hc : b.positionColors = b'.positionColors) (hs : b.side = b'.side) (ml : Movelist) :
    b.generateMoves ml = b'.generateMoves ml := by
  have hfrom : ∀ add, b.movesFrom add = b'.movesFrom add := by
    intro add
    funext src
    simp only [Board.movesFrom, Board.colorAt, Board.pieceAt, hp, hc, hs, attacks_congr hc]
  have hcapture : b.captureTo = b'.captureTo := by
    funext src p dst
    simp only [Board.captureTo, Board.colorAt, Board.pieceAt, hp, hc, hs]
  have hquiet : b.noncaptureTo = b'.noncaptureTo := by
    funext src p dst
    simp only [Board.noncaptureTo, Board.colorAt, hc]
  simp only [Board.generateMoves, Board.generateCaptures, Board.generateNoncaptures, hfrom,
    hcapture, hquiet]

/-- Only what the two loops find is listed. -/
theorem mem_found_of_mem_generateMoves {mov : Move} (h : mov ∈ (b.generateMoves .empty).moves) :
    mov ∈ b.found b.captureTo ∨ mov ∈ b.found b.noncaptureTo := by
  obtain ⟨e, he, rfl⟩ := List.mem_map.mp h
  rcases Capped.mem_of_mem_addAll he with he | he
  · rcases Capped.mem_of_mem_addAll he with he | he
    · cases he
    · obtain ⟨mov, hmov, rfl⟩ := List.mem_map.mp he
      exact Or.inl hmov
  · obtain ⟨mov, hmov, rfl⟩ := List.mem_map.mp he
    exact Or.inr hmov

/-- No move goes to the square of a king that is not there. -/
theorem isAttacked_none [Keys] {c : Color} (hs : b.side = c) : b.isAttacked none c = false := by
  have hto : ∀ {add}, Board.Adds add → ∀ mov ∈ b.found add, mov.movTo ≠ none := by
    intro add hadd mov hmov hnone
    obtain ⟨src, _, hfrom⟩ := List.mem_flatMap.mp hmov
    obtain ⟨_, p, _, dst, _, hm⟩ := Board.mem_movesFrom.mp hfrom
    rw [hadd.movTo hm] at hnone
    cases hnone
  unfold Board.isAttacked
  rw [if_neg (not_not.mpr hs.symm), List.any_eq_false]
  intro mov hmov h
  rcases mem_found_of_mem_generateMoves hmov with hmem | hmem
  · exact hto (Board.adds_captureTo b) mov hmem (of_decide_eq_true h)
  · exact hto (Board.adds_noncaptureTo b) mov hmem (of_decide_eq_true h)

/-- On boards with the same men and side to move. -/
theorem isAttacked_congr [Keys] {c : Color} (hp : b.positionPieces = b'.positionPieces)
    (hc : b.positionColors = b'.positionColors) (hs : b.side = c) (hs' : b'.side = c)
    (dst : Option Square) : b.isAttacked dst c = b'.isAttacked dst c := by
  unfold Board.isAttacked
  rw [if_neg (not_not.mpr hs.symm), if_neg (not_not.mpr hs'.symm)]
  dsimp only
  rw [generateMoves_congr hp hc (hs.trans hs'.symm)]

theorem facingLoop_congr (h : b.positionColors = b'.positionColors) (sqb : Int)
    (fuel : Nat) (sq : Int) : b.facingLoop sqb fuel sq = b'.facingLoop sqb fuel sq := by
  induction fuel generalizing sq with
  | zero => rfl
  | succ fuel ih => simp only [Board.facingLoop, Board.colorAt, h, ih]

theorem kingsFacingWalk_congr (hc : b.positionColors = b'.positionColors)
    (hk : b.king = b'.king) : b.kingsFacingWalk = b'.kingsFacingWalk := by
  simp only [Board.kingsFacingWalk, Board.getKing, hk, facingLoop_congr hc]

namespace Board.Same

variable [Keys]

theorem makeNull (h : b.Same b') : (b.makeMove .null).Same (b'.makeMove .null) :=
  ⟨h.pieces, h.colors, h.king, congrArg Color.xside h.side⟩

/-- **Whether a side is in check** is seen from the position. -/
theorem inCheck (h : b.Same b') : b.inCheck = b'.inCheck := by
  have hwalk := kingsFacingWalk_congr h.colors h.king
  have hking : b.getKing b.side = b'.getKing b'.side := by
    rw [Board.getKing, Board.getKing, h.king, h.side]
  have hattacked : b.isAttacked (b.getKing b.side) b.side.xside =
      b'.isAttacked (b'.getKing b'.side) b'.side.xside := by
    unfold Board.isAttacked
    rw [if_pos (Chess.xside_ne _), if_pos (Chess.xside_ne _), hking]
    dsimp only
    rw [generateMoves_congr h.makeNull.pieces h.makeNull.colors h.makeNull.side]
  unfold Board.inCheck Board.kingsFacing
  rw [hwalk, hattacked]

end Board.Same

end Same

end HoiChess.Xiangqi
