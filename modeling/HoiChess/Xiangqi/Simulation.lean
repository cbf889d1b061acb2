import HoiChess.Xiangqi.Sane

/-!
# The xiangqi board simulates the rules

A board is consistent with a placement of men if every redundant field is what one would
compute from it (`Consistent`); `Sim b pos` says that `b` represents `pos`, and making a move
or passing carries out the rules (`Sim.makeMove`, `Sim.makeNull`).
-/

namespace HoiChess.Xiangqi

open Grid Rules Incremental
open Chess (Color PerColor)

/-! ## Moves of the program for moves of the rules -/

namespace Rules.Ply

/-- The move that the program generates for a ply. -/
def encode (ply : Ply) : Move :=
  match ply.cap with
  | none => .normal ply.src ply.dst ply.piece
  | some q => .capture ply.src ply.dst ply.piece q

variable (ply : Ply)

@[simp] theorem movFrom_encode : ply.encode.movFrom = some ply.src := by
  unfold encode; cases ply.cap <;> rfl

@[simp] theorem movTo_encode : ply.encode.movTo = some ply.dst := by
  unfold encode; cases ply.cap <;> rfl

@[simp] theorem movPtype_encode : ply.encode.movPtype = some ply.piece := by
  unfold encode; cases ply.cap <;> rfl

@[simp] theorem movCapPtype_encode : ply.encode.movCapPtype = ply.cap := by
  unfold encode; cases ply.cap <;> rfl

@[simp] theorem isCapture_encode : ply.encode.isCapture = ply.cap.isSome := by
  unfold encode
  cases ply.cap with
  | none => exact Move.isCapture_normal _ _ _
  | some q => exact Move.isCapture_capture _ _ _ _

theorem isNull_encode : ply.encode.isNull = false := by
  unfold encode
  cases ply.cap with
  | none => exact Move.isNull_normal _ _ _
  | some q => exact Move.isNull_capture _ _ _ _

end Rules.Ply

/-! ## Consistency -/

section Keys

variable [k : Keys]

/-- The key of the man on a square. -/
def manKey (sq : Square) : Option Man → Hashkey
  | none => 0#64
  | some (c, p) => k.hashkeys c p sq

/-- The key of the man on a square in the pawn hash. -/
def manPawnKey (sq : Square) : Option Man → Hashkey
  | none => 0#64
  | some (c, p) => if p = .pawn then k.hashkeys c p sq else 0#64

/-- What the man on a square counts for side `c`. -/
def manValue (c : Color) : Option Man → Int
  | none => 0
  | some (d, p) => if d = c then matValues p else 0

def sideKey : Color → Hashkey
  | .white => 0#64
  | .black => k.hashSide

/-- The redundant fields of `b` agree with the placement `man`. -/
structure Consistent (b : Board) (man : Placement) : Prop where
  pieces : ∀ sq, b.pieceAt sq = (man sq).map Prod.snd
  colors : Colored b man
  king : ∀ c sq, b.getKing c = some sq → man sq = some (c, .king)
  material : ∀ c, b.material.get c = ∑ sq, manValue c (man sq)
  hash : b.hashkey = xorSum (fun sq => manKey sq (man sq)) ^^^ sideKey b.side
  pawnhash : b.pawnhashkey = xorSum (fun sq => manPawnKey sq (man sq)) ^^^ sideKey b.side

variable {b : Board} {man : Placement}

theorem sideKey_xside (c : Color) : sideKey c.xside = sideKey c ^^^ k.hashSide := by
  cases c <;> simp [sideKey, Color.xside]

/-- Moving a piece is removing it and placing it again. -/
theorem movePiece_eq (b : Board) (src dst : Square) (c : Color) (p : Piece) :
    b.movePiece src dst c p = (b.removePiece src c p).placePiece dst c p := by
  unfold Board.movePiece Board.placePiece Board.removePiece
  simp only [PerColor.get_set_self, PerColor.set_set, sub_add_cancel, PerColor.set_get]
  congr 1
  · by_cases hp : p = .king <;> simp [hp, PerColor.set_set]
  · by_cases hp : p = .pawn <;> simp [hp]

namespace Consistent

theorem clear : Consistent Board.clear (fun _ => none) where
  pieces _ := rfl
  colors _ := rfl
  king c sq h := by
    have h' : (PerColor.both (none : Option Square)).get c = some sq := h
    cases c <;> cases h'
  material c := by
    show (PerColor.both (0 : Int)).get c = _
    cases c <;> simp [PerColor.both, PerColor.get, manValue]
  hash := by
    show 0#64 = xorSum (fun _ => 0#64) ^^^ 0#64
    rw [xorSum_zero, BitVec.xor_zero]
  pawnhash := by
    show 0#64 = xorSum (fun _ => 0#64) ^^^ 0#64
    rw [xorSum_zero, BitVec.xor_zero]

theorem placePiece (h : Consistent b man) {sq : Square} (c : Color) (p : Piece) (he : man sq = none) :
    Consistent (b.placePiece sq c p) (Function.update man sq (some (c, p))) where
  pieces s := by
    show Function.update b.positionPieces sq (some p) s = _
    rw [Function.apply_update (fun _ => Option.map Prod.snd)]
    exact congrArg (fun f => Function.update f sq (some p) s) (funext h.pieces)
  colors s := by
    show Function.update b.positionColors sq (some c) s = _
    rw [Function.apply_update (fun _ => Option.map Prod.fst)]
    exact congrArg (fun f => Function.update f sq (some c) s) (funext h.colors)
  king d s hk := by
    have hk' : (if p = .king then b.king.set c (some sq) else b.king).get d = some s := hk
    have hold : b.getKing d = some s →
        Function.update man sq (some (c, p)) s = some (d, .king) := by
      intro hb
      have hs := h.king d s hb
      rw [Function.update_of_ne, hs]
      rintro rfl
      rw [he] at hs
      cases hs
    by_cases hp : p = .king
    · rw [if_pos hp, PerColor.get_set] at hk'
      by_cases hc : c = d
      · rw [if_pos hc] at hk'
        cases hk'
        rw [Function.update_self, hp, hc]
      · rw [if_neg hc] at hk'
        exact hold hk'
    · rw [if_neg hp] at hk'
      exact hold hk'
  material d := by
    show (b.material.set c (b.material.get c + matValues p)).get d = _
    rw [funext (Function.apply_update (fun _ => manValue d) man sq _), sum_update, he,
      ← h.material d, PerColor.get_set]
    by_cases hc : c = d
    · subst hc; simp [manValue]
    · simp [manValue, hc]
  hash := by
    show b.hashkey ^^^ k.hashkeys c p sq = _ ^^^ sideKey b.side
    rw [funext (Function.apply_update manKey man sq _), xorSum_update, he, h.hash]
    simp only [manKey, BitVec.xor_zero]
    ac_rfl
  pawnhash := by
    show (if p = .pawn then b.pawnhashkey ^^^ k.hashkeys c p sq else b.pawnhashkey) =
      _ ^^^ sideKey b.side
    rw [funext (Function.apply_update manPawnKey man sq _), xorSum_update, he, h.pawnhash]
    by_cases hp : p = .pawn
    · simp only [manPawnKey, hp, if_true, BitVec.xor_zero]
      ac_rfl
    · simp [manPawnKey, hp]

theorem removePiece (h : Consistent b man) {sq : Square} {c : Color} {p : Piece}
    (he : man sq = some (c, p)) :
    Consistent (b.removePiece sq c p) (Function.update man sq none) where
  pieces s := by
    show Function.update b.positionPieces sq none s = _
    rw [Function.apply_update (fun _ => Option.map Prod.snd)]
    exact congrArg (fun f => Function.update f sq none s) (funext h.pieces)
  colors s := by
    show Function.update b.positionColors sq none s = _
    rw [Function.apply_update (fun _ => Option.map Prod.fst)]
    exact congrArg (fun f => Function.update f sq none s) (funext h.colors)
  king d s hk := by
    have hk' : (if p = .king then b.king.set c none else b.king).get d = some s := hk
    have hold : b.getKing d = some s → (c = d → p ≠ .king) →
        Function.update man sq none s = some (d, .king) := by
      intro hb hne
      have hs := h.king d s hb
      rw [Function.update_of_ne, hs]
      rintro rfl
      rw [he] at hs
      obtain ⟨hc, hp⟩ := Prod.mk.inj (Option.some.inj hs)
      exact hne hc hp
    by_cases hp : p = .king
    · rw [if_pos hp, PerColor.get_set] at hk'
      by_cases hc : c = d
      · rw [if_pos hc] at hk'
        cases hk'
      · rw [if_neg hc] at hk'
        exact hold hk' (fun e => absurd e hc)
    · rw [if_neg hp] at hk'
      exact hold hk' (fun _ => hp)
  material d := by
    show (b.material.set c (b.material.get c - matValues p)).get d = _
    rw [funext (Function.apply_update (fun _ => manValue d) man sq _), sum_update, he,
      ← h.material d, PerColor.get_set]
    by_cases hc : c = d
    · subst hc; simp [manValue]
    · simp [manValue, hc]
  hash := by
    show b.hashkey ^^^ k.hashkeys c p sq = _ ^^^ sideKey b.side
    rw [funext (Function.apply_update manKey man sq _), xorSum_update, he, h.hash]
    simp only [manKey, BitVec.xor_zero]
    ac_rfl
  pawnhash := by
    show (if p = .pawn then b.pawnhashkey ^^^ k.hashkeys c p sq else b.pawnhashkey) =
      _ ^^^ sideKey b.side
    rw [funext (Function.apply_update manPawnKey man sq _), xorSum_update, he, h.pawnhash]
    by_cases hp : p = .pawn
    · simp only [manPawnKey, hp, if_true, BitVec.xor_zero]
      ac_rfl
    · simp [manPawnKey, hp]

theorem movePiece (h : Consistent b man) {src dst : Square} {c : Color} {p : Piece}
    (hs : man src = some (c, p)) (hd : Function.update man src none dst = none) :
    Consistent (b.movePiece src dst c p)
      (Function.update (Function.update man src none) dst (some (c, p))) := by
  rw [movePiece_eq]
  exact (h.removePiece hs).placePiece c p hd

theorem switchSides (h : Consistent b man) : Consistent b.switchSides man where
  pieces := h.pieces
  colors := h.colors
  king := h.king
  material := h.material
  hash := by
    show b.hashkey ^^^ k.hashSide = _ ^^^ sideKey b.side.xside
    rw [h.hash, sideKey_xside, BitVec.xor_assoc]
  pawnhash := by
    show b.pawnhashkey ^^^ k.hashSide = _ ^^^ sideKey b.side.xside
    rw [h.pawnhash, sideKey_xside, BitVec.xor_assoc]

theorem updateCounters (h : Consistent b man) (mov : Move) :
    Consistent (b.updateCounters mov) man :=
  ⟨h.pieces, h.colors, h.king, h.material, h.switchSides.hash, h.switchSides.pawnhash⟩

end Consistent

/-! ## The simulation -/

/-- The board `b` represents the position `pos`. -/
structure Sim (b : Board) (pos : Position) : Prop where
  consistent : Consistent b pos.man
  side : b.side = pos.side
  king : ∀ c k, pos.man k = some (c, .king) → b.getKing c = some k

theorem movePieces_encode (b : Board) (ply : Ply) :
    b.movePieces ply.encode =
      (match ply.cap with
        | none => b
        | some q => b.removePiece ply.dst b.side.xside q).movePiece ply.src ply.dst b.side ply.piece := by
  unfold Ply.encode
  cases ply.cap with
  | none =>
    show (if Move.isCapture _ then _ else if Move.isNormal _ then _ else _) = _
    rw [Move.isCapture_normal, Move.isNormal_normal]
    rfl
  | some q =>
    show (if Move.isCapture _ then _ else _) = _
    rw [Move.isCapture_capture]
    rfl

/-- The squares of the kings after a move that takes none. -/
theorem getKing_movePieces (b : Board) {ply : Ply} (hcap : ply.cap ≠ some .king) (c : Color) :
    (b.movePieces ply.encode).getKing c =
      if c = b.side ∧ ply.piece = .king then some ply.dst else b.getKing c := by
  have hmove : ∀ b' : Board, b'.king = b.king →
      (b'.movePiece ply.src ply.dst b.side ply.piece).getKing c =
        if c = b.side ∧ ply.piece = .king then some ply.dst else b.getKing c := by
    intro b' hb'
    show (if ply.piece = .king then b'.king.set b.side (some ply.dst) else b'.king).get c = _
    rw [hb']
    by_cases hp : ply.piece = .king
    · rw [if_pos hp, PerColor.get_set]
      by_cases hc : c = b.side
      · rw [if_pos hc.symm, if_pos ⟨hc, hp⟩]
      · rw [if_neg (Ne.symm hc), if_neg (fun e => hc e.1)]
    · rw [if_neg hp, if_neg (fun e => hp e.2)]
  rw [movePieces_encode]
  cases hc : ply.cap with
  | none => exact hmove b rfl
  | some q =>
    refine hmove _ ?_
    show (if q = .king then _ else b.king) = b.king
    rw [if_neg (fun e => hcap (by rw [hc, e]))]

namespace Sim

variable {pos : Position} {ply : Ply}

/-- **Making a pseudo-legal move leads to the board of the position after it.** -/
theorem makeMove (h : Sim b pos) (hv : Valid pos) (hsafe : pos.Safe) (hp : pos.Pseudo ply) :
    Sim (b.makeMove ply.encode) (pos.apply ply) where
  consistent := by
    refine Consistent.updateCounters ?_ ply.encode
    show Consistent (b.movePieces ply.encode) (pos.placement ply)
    rw [movePieces_encode, h.side]
    have hsrc := hp.man_src
    have hdst := hp.man_dst
    have hne := hp.src_ne_dst
    unfold Position.placement
    cases hc : ply.cap with
    | none =>
      rw [hc] at hdst
      exact h.consistent.movePiece hsrc (by rw [Function.update_of_ne hne.symm, hdst]; rfl)
    | some q =>
      rw [hc] at hdst
      have hrem := h.consistent.removePiece hdst
      have hmove : Consistent ((b.removePiece ply.dst pos.side.xside q).movePiece ply.src ply.dst
          pos.side ply.piece) _ :=
        hrem.movePiece (by rw [Function.update_of_ne hne, hsrc])
          (by rw [Function.update_of_ne hne.symm, Function.update_self])
      have hcomm : Function.update (Function.update pos.man ply.dst none) ply.src none =
          Function.update (Function.update pos.man ply.src none) ply.dst none :=
        Function.update_comm hne.symm none none pos.man
      rw [hcomm, Function.update_idem] at hmove
      exact hmove
  side := congrArg Color.xside (Eq.trans (by rw [movePieces_encode]; cases ply.cap <;> rfl) h.side)
  king c k hk := by
    have hk' := (hp.placement_king hv hsafe c k).mp hk
    show (b.movePieces ply.encode).getKing c = some k
    rw [getKing_movePieces b (hp.cap_ne_king hsafe), h.side]
    split at hk'
    · rename_i hc
      rw [if_pos hc, hk']
    · rename_i hc
      rw [if_neg hc]
      exact h.king c k hk'

/-- **A null move passes the turn.** -/
theorem makeNull (h : Sim b pos) : Sim (b.makeMove .null) pos.pass where
  consistent := h.consistent.updateCounters .null
  side := congrArg Color.xside h.side
  king := h.king

end Sim

end Keys

end HoiChess.Xiangqi
