import HoiChess.Xiangqi.Reached

/-!
# What `is_valid_move` accepts

Moves of the hash table and of the opening book come from another board.  `is_valid_move`
compares their two ends with this one (`Fits`); the part that would follow the man on its way is
compiled out, and the man that is taken is not looked at (`Follows`).
-/

namespace HoiChess.Xiangqi

open Grid Rules
open Chess (Color PerColor)

/-- `Move::normal` and `Move::capture` with any piece types. -/
inductive ForeignMove where
  | normal (src dst : Square) (ptype : Option Piece)
  | capture (src dst : Square) (ptype capPtype : Option Piece)
  deriving DecidableEq, Repr

namespace ForeignMove

def src : ForeignMove → Square
  | normal s _ _ => s
  | capture s _ _ _ => s

def dst : ForeignMove → Square
  | normal _ t _ => t
  | capture _ t _ _ => t

def ptype : ForeignMove → Option Piece
  | normal _ _ p => p
  | capture _ _ p _ => p

/-- The piece that is taken, as the move has it. -/
def capPtype : ForeignMove → Option Piece
  | normal _ _ _ => none
  | capture _ _ _ q => q

def taking : ForeignMove → Bool
  | normal _ _ _ => false
  | capture _ _ _ _ => true

def move (f : ForeignMove) : Move :=
  ⟨some f.src, some f.dst, f.ptype, f.capPtype, if f.taking then Move.moveCapture else Move.moveNormal⟩

theorem isCapture_move (f : ForeignMove) : f.move.isCapture = f.taking := by
  cases f with
  | normal s t p => exact (by decide : (Move.moveNormal &&& Move.moveCapture != 0#16) = false)
  | capture s t p q => exact (by decide : (Move.moveCapture &&& Move.moveCapture != 0#16) = true)

theorem isNull_move (f : ForeignMove) : f.move.isNull = false := by
  cases f with
  | normal s t p => exact (by decide : (Move.moveNormal &&& Move.moveNull != 0#16) = false)
  | capture s t p q => exact (by decide : (Move.moveCapture &&& Move.moveNull != 0#16) = false)

variable (pos : Position) (f : ForeignMove)

/-- The man that moves stands where it should, and it takes an enemy or nobody, as the move says. -/
structure Fits : Prop where
  man_src : ∃ p, f.ptype = some p ∧ pos.man f.src = some (pos.side, p)
  man_dst : (pos.man f.dst).map Prod.fst = if f.taking then some pos.side.xside else none

/-- The man gets to its destination, and takes what the move says it takes. -/
structure Follows : Prop where
  moves : ∀ p, f.ptype = some p → Moves pos.man pos.side f.taking f.src f.dst p
  takes : (pos.man f.dst).map Prod.snd = f.capPtype

variable {pos f}

/-- A foreign move is the move of a ply exactly if it says what the ply does. -/
theorem encode_eq_move {ply : Ply} : ply.encode = f.move ↔
    f.src = ply.src ∧ f.dst = ply.dst ∧ f.ptype = some ply.piece ∧ f.capPtype = ply.cap ∧
      f.taking = ply.cap.isSome := by
  constructor
  · intro h
    have hcap := congrArg Move.isCapture h
    rw [isCapture_move, Ply.isCapture_encode] at hcap
    have hsrc := congrArg Move.movFrom h
    have hdst := congrArg Move.movTo h
    have hptype := congrArg Move.movPtype h
    have htakes := congrArg Move.movCapPtype h
    rw [Ply.movFrom_encode] at hsrc
    rw [Ply.movTo_encode] at hdst
    rw [Ply.movPtype_encode] at hptype
    rw [Ply.movCapPtype_encode] at htakes
    exact ⟨(Option.some.inj hsrc).symm, (Option.some.inj hdst).symm, hptype.symm, htakes.symm, hcap.symm⟩
  · rintro ⟨hsrc, hdst, hptype, htakes, htaking⟩
    obtain ⟨s, t, p, cap⟩ := ply
    rw [move, hsrc, hdst, hptype, htakes, htaking]
    cases cap <;> rfl

section Keys

variable [Keys] {b : Board}

/-- **`is_valid_move` looks at the two ends.** -/
theorem isValidMove_iff (h : Sim b pos) : b.isValidMove f.move = true ↔ Fits pos f := by
  have hc : ∀ sq, b.colorAt sq = (pos.man sq).map Prod.fst := h.consistent.colors
  have hp := h.consistent.pieces
  have hsrc : (b.colorAt f.src = some b.side ∧ b.pieceAt f.src = f.ptype) ↔
      ∃ p, f.ptype = some p ∧ pos.man f.src = some (pos.side, p) := by
    rw [hc, hp, h.side]
    cases pos.man f.src with
    | none => simp
    | some m =>
      obtain ⟨c, p⟩ := m
      simp only [Option.map_some, Option.some.injEq, Prod.mk.injEq]
      constructor
      · rintro ⟨rfl, hptype⟩
        exact ⟨p, hptype.symm, rfl, rfl⟩
      · rintro ⟨q, hptype, rfl, rfl⟩
        exact ⟨rfl, hptype.symm⟩
  have hdst : (pos.man f.dst).map Prod.fst = b.colorAt f.dst := (hc f.dst).symm
  have hcheck : b.isValidMove f.move =
      if b.colorAt f.src ≠ some b.side ∨ b.pieceAt f.src ≠ f.ptype then false
      else if f.taking then decide (b.colorAt f.dst = some b.side.xside)
      else decide (b.colorAt f.dst = none) := by
    unfold Board.isValidMove
    rw [isNull_move, isCapture_move]
    rfl
  rw [hcheck]
  by_cases hends : b.colorAt f.src = some b.side ∧ b.pieceAt f.src = f.ptype
  · rw [if_neg (by rw [not_or, not_not, not_not]; exact hends)]
    have hfits : Fits pos f ↔ b.colorAt f.dst = if f.taking then some b.side.xside else none := by
      rw [← hdst, h.side]
      exact ⟨fun hf => hf.man_dst, fun hf => ⟨hsrc.mp hends, hf⟩⟩
    rw [hfits]
    cases f.taking <;> simp
  · rw [if_pos (by rwa [← not_and_or])]
    exact iff_of_false (by simp) fun hf => hends (hsrc.mpr hf.man_src)

/-- **A move is listed** if it fits and the man follows its way to what the move says. -/
theorem listed_iff (h : Sim b pos) (hv : Valid pos) :
    f.move ∈ (b.generateMoves .empty).moves ↔ Fits pos f ∧ Follows pos f := by
  rw [h.mem_generateMoves hv]
  constructor
  · rintro ⟨ply, hp, hmove⟩
    obtain ⟨hsrc, hdst, hptype, htakes, htaking⟩ := encode_eq_move.mp hmove
    refine ⟨⟨⟨ply.piece, hptype, hsrc ▸ hp.man_src⟩, ?_⟩, fun p hp' => ?_, ?_⟩
    · rw [hdst, hp.man_dst, htaking]
      cases ply.cap <;> rfl
    · rw [hptype] at hp'
      cases hp'
      rw [hsrc, hdst, htaking]
      exact hp.moves
    · rw [hdst, hp.man_dst, htakes]
      cases ply.cap <;> rfl
  · rintro ⟨⟨⟨p, hptype, hman⟩, hcolor⟩, hmoves, htakes⟩
    have hcap : pos.man f.dst = f.capPtype.map fun q => (pos.side.xside, q) := by
      rw [← htakes]
      cases hm : pos.man f.dst with
      | none => rfl
      | some m =>
        rw [hm, Option.map_some] at hcolor
        obtain ⟨c, q⟩ := m
        cases ht : f.taking with
        | false =>
          rw [ht] at hcolor
          cases hcolor
        | true =>
          rw [ht] at hcolor
          cases hcolor
          rfl
    have htaking : f.taking = f.capPtype.isSome := by
      rw [hcap, Option.map_map] at hcolor
      cases ht : f.taking <;> cases hq : f.capPtype <;> rw [ht, hq] at hcolor <;> first | rfl | cases hcolor
    refine ⟨⟨f.src, f.dst, p, f.capPtype⟩, ⟨hman, hcap, ?_⟩, encode_eq_move.mpr ?_⟩
    · rw [← htaking]
      exact hmoves p hptype
    · exact ⟨rfl, rfl, hptype, rfl, htaking⟩

/-- **When the check is exact** for a foreign move: if the two ends fit, the man has to follow. -/
theorem isValidMove_exact_iff (h : Reached b) (f : ForeignMove) :
    (b.isValidMove f.move = true ↔ f.move ∈ (b.generateMoves .empty).moves) ↔
      (Fits b.abs f → Follows b.abs f) := by
  obtain ⟨pos, hsim, hp⟩ := h.sim
  rw [hsim.abs_eq, isValidMove_iff hsim, listed_iff hsim hp.sane.toValid]
  exact ⟨fun h hf => (h.mp hf).2, fun h => ⟨fun hf => ⟨hf, h hf⟩, And.left⟩⟩

end Keys

end ForeignMove

/-- A step of a pawn, in the opening position. -/
theorem isValidMove_exact_opening : ∃ b, @Board.parseFen sampleKeys openingFen = .accepted b ∧
    (b.isValidMove (Move.normal 27 36 .pawn) = true ↔
      Move.normal 27 36 .pawn ∈ (b.generateMoves .empty).moves) := by
  let _ := sampleKeys
  obtain ⟨b, hb, hsim⟩ := parseFen_opening
  refine ⟨b, hb, (ForeignMove.isValidMove_exact_iff (.opening hb) (.normal 27 36 (some .pawn))).mpr ?_⟩
  rw [hsim.abs_eq]
  intro _
  refine ⟨fun p hp => ?_, by decide⟩
  cases hp
  exact Or.inl ⟨rfl, rfl⟩

/-- The king jumps out of its palace. -/
theorem isValidMove_not_exact : ¬ ∀ b, @Reached sampleKeys b → ∀ f : ForeignMove,
    (b.isValidMove f.move = true ↔ f.move ∈ (b.generateMoves .empty).moves) := by
  let _ := sampleKeys
  intro h
  obtain ⟨b, hb, hsim⟩ := parseFen_opening
  have hfits : ForeignMove.Fits opening (.normal 4 40 (some .king)) :=
    ⟨⟨.king, rfl, by decide⟩, by decide⟩
  have hlisted := (h b (.opening hb) _).mp ((ForeignMove.isValidMove_iff hsim).mpr hfits)
  have hfollows := ((ForeignMove.listed_iff hsim sane_opening.toValid).mp hlisted).2
  have hpalace : InPalace .white 40 := (hfollows.moves .king rfl).1
  exact absurd hpalace (by decide)

end HoiChess.Xiangqi
