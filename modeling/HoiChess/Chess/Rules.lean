import HoiChess.Chess.Bitboard

/-!
# The rules of chess on the coordinate board

The reference that the program's move generation and move execution are
compared with.  It knows nothing of bitboards, tables or move words: pieces
leap or walk along rays of the 8x8 grid (`reach`), a `Ply` is a move with
everything that describes it, `Pseudo` says that it follows the movement
rules, `apply` carries it out and `Legal` adds that the own king is not left
in check.  Castling rights are kept with the position; castling also looks at
the home squares.
-/

namespace HoiChess.Chess

open Grid

abbrev Placement := Square → Option Man

def CastleFlag.color : CastleFlag → Color
  | .wk | .wq => .white
  | .bk | .bq => .black

namespace Rules

/-! ## How the pieces move -/

def forward : Color → Dir
  | .white => (0, 1)
  | .black => (0, -1)

/-- Single steps, over other pieces if need be. -/
def leapDirs (c : Color) : Piece → List Dir
  | .pawn => [(1, (forward c).2), (-1, (forward c).2)]
  | .knight => [(1, 2), (2, 1), (2, -1), (1, -2), (-1, -2), (-2, -1), (-2, 1), (-1, 2)]
  | .king => kingDirs
  | _ => []

/-- Rays, up to the first piece in the way. -/
def slideDirs : Piece → List Dir
  | .bishop => bishopDirs
  | .rook => rookDirs
  | .queen => kingDirs
  | _ => []

def occupied (man : Placement) (sq : Square) : Bool := (man sq).isSome

/-- The squares that a piece standing on `s` attacks; for a pawn these are its
two capture squares. -/
def reach (man : Placement) (c : Color) (p : Piece) (s : Square) : List Square :=
  (leapDirs c p).filterMap (step s) ++
    (slideDirs p).flatMap (fun d => walk (occupied man) d 7 s)

/-- Some man of side `c` attacks `t`. -/
def Attacked (man : Placement) (c : Color) (t : Square) : Prop :=
  ∃ s p, man s = some (c, p) ∧ t ∈ reach man c p s

instance (man : Placement) (c : Color) (t : Square) : Decidable (Attacked man c t) := by
  unfold Attacked; infer_instance

/-- The rank on which the pawns of a side start. -/
def pawnRank : Color → Nat
  | .white => rank2
  | .black => rank7

/-- The rank on which the pawns of a side promote. -/
def lastRank : Color → Nat
  | .white => rank8
  | .black => rank1

/-- The squares to which a pawn on `s` can advance. -/
def pushes (man : Placement) (c : Color) (s : Square) : List Square :=
  match step s (forward c) with
  | none => []
  | some t =>
    if occupied man t then []
    else
      t :: if rnk s = pawnRank c then
          (step t (forward c)).toList.filter (fun u => !occupied man u)
        else []

/-! ## Positions and moves -/

structure Position where
  man : Placement
  side : Color
  right : CastleFlag → Bool
  ep : Option Square

/-- A move together with the moving piece and the captured piece, if any. -/
inductive Ply where
  | move (src dst : Square) (p : Piece) (cap : Option Piece)
  | promote (src dst : Square) (p : Piece) (cap : Option Piece)
  | enpassant (src dst : Square)
  | castle (f : CastleFlag)
  deriving DecidableEq, Repr

end Rules

namespace CastleFlag

def kingHome (f : CastleFlag) : Square :=
  match f.color with
  | .white => e1
  | .black => e8

def rookHome : CastleFlag → Square
  | .wk => h1
  | .wq => a1
  | .bk => h8
  | .bq => a8

/-- The square the king passes, where the rook ends up. -/
def transit : CastleFlag → Square
  | .wk => f1
  | .wq => d1
  | .bk => f8
  | .bq => d8

def kingDest : CastleFlag → Square
  | .wk => g1
  | .wq => c1
  | .bk => g8
  | .bq => c8

end CastleFlag

namespace Rules

/-- The square of the pawn that is captured en passant from `src` to `dst`. -/
def epVictim (src dst : Square) : Square :=
  mkSquare ⟨rnk src, rnk_lt src⟩ ⟨fil dst, fil_lt dst⟩

def promotionPieces : List Piece := [.queen, .knight, .bishop, .rook]

/-- The squares to which a piece moves when it captures and when it does not. -/
def targets (man : Placement) (c : Color) (p : Piece) (capturing : Bool) (s : Square) :
    List Square :=
  if p = .pawn ∧ capturing = false then pushes man c s else reach man c p s

namespace Position

variable (pos : Position)

/-- The moving piece stands on `src`, what is captured on `dst`, and the piece moves so. -/
def Carries (src dst : Square) (p : Piece) (cap : Option Piece) : Prop :=
  pos.man src = some (pos.side, p) ∧ pos.man dst = cap.map (fun q => (pos.side.xside, q)) ∧
    dst ∈ targets pos.man pos.side p cap.isSome src

/-- Pseudo-legal: by the rules, except that the own king may be left in check. -/
def Pseudo : Ply → Prop
  | .move src dst p cap =>
    pos.Carries src dst p cap ∧ ¬ (p = .pawn ∧ rnk dst = lastRank pos.side)
  | .promote src dst p cap =>
    pos.Carries src dst .pawn cap ∧ rnk dst = lastRank pos.side ∧ p ∈ promotionPieces
  | .enpassant src dst =>
    pos.man src = some (pos.side, .pawn) ∧ pos.ep = some dst ∧
      dst ∈ reach pos.man pos.side .pawn src
  | .castle f =>
    f.color = pos.side ∧ pos.right f = true ∧
      pos.man f.kingHome = some (pos.side, .king) ∧ pos.man f.rookHome = some (pos.side, .rook) ∧
      (∀ u, Between f.kingHome f.rookHome u → pos.man u = none) ∧
      ¬ Attacked pos.man pos.side.xside f.kingHome ∧ ¬ Attacked pos.man pos.side.xside f.transit

def placement : Ply → Placement
  | .move src dst p _ =>
    Function.update (Function.update pos.man src none) dst (some (pos.side, p))
  | .promote src dst p _ =>
    Function.update (Function.update pos.man src none) dst (some (pos.side, p))
  | .enpassant src dst =>
    Function.update (Function.update (Function.update pos.man src none) dst
      (some (pos.side, .pawn))) (epVictim src dst) none
  | .castle f =>
    Function.update (Function.update (Function.update (Function.update pos.man f.kingHome none)
      f.kingDest (some (pos.side, .king))) f.rookHome none) f.transit (some (pos.side, .rook))

end Position

namespace Ply

def src : Ply → Square
  | move s _ _ _ | promote s _ _ _ | enpassant s _ => s
  | castle f => f.kingHome

def dst : Ply → Square
  | move _ t _ _ | promote _ t _ _ | enpassant _ t => t
  | castle f => f.kingDest

/-- The square a pawn passes in a double step. -/
def passed : Ply → Option Square
  | move s t .pawn none =>
    if rnk t = rnk s + 2 ∨ rnk s = rnk t + 2 then
      some (mkSquare ⟨(rnk s + rnk t) / 2, by have := rnk_lt s; have := rnk_lt t; omega⟩
        ⟨fil s, fil_lt s⟩)
    else none
  | _ => none

/-- The move starts or ends on `sq`. -/
def touches (ply : Ply) (sq : Square) : Bool := ply.src = sq || ply.dst = sq

end Ply

namespace Position

variable (pos : Position)

/-- The position after a move.  A castling right is lost when the home square
of the king or of the rook is left or captured on. -/
def apply (ply : Ply) : Position where
  man := pos.placement ply
  side := pos.side.xside
  right f := pos.right f && !ply.touches f.kingHome && !ply.touches f.rookHome
  ep := ply.passed

/-- Passing the turn. -/
def pass : Position := { pos with side := pos.side.xside, ep := none }

def InCheck : Prop :=
  ∃ sq, pos.man sq = some (pos.side, .king) ∧ Attacked pos.man pos.side.xside sq

/-- The side that just moved has not left its king in check. -/
def Safe : Prop :=
  ∀ sq, pos.man sq = some (pos.side.xside, .king) → ¬ Attacked pos.man pos.side sq

def Legal (ply : Ply) : Prop := pos.Pseudo ply ∧ (pos.apply ply).Safe

end Position

instance (pos : Position) : Decidable pos.InCheck := by
  unfold Position.InCheck; infer_instance

instance (pos : Position) : Decidable pos.Safe := by
  unfold Position.Safe; infer_instance

/-! ## Attacks as geometry and clear lines -/

/-- `t` is where the piece on `s` could go on an empty board. -/
def Geometry (c : Color) (p : Piece) (s t : Square) : Prop :=
  (∃ d ∈ leapDirs c p, Along s d 1 t) ∨ Aligned (slideDirs p) s t

theorem slideDirs_unit (p : Piece) : ∀ d ∈ slideDirs p, d ∈ kingDirs := by
  cases p <;> simp [slideDirs, mem_kingDirs] <;> intro a b h <;> simp [h]

theorem slideDirs_neg (p : Piece) : ∀ d ∈ slideDirs p, -d ∈ slideDirs p := by
  cases p
  case bishop => exact fun _ => neg_mem_bishopDirs
  case rook => exact fun _ => neg_mem_rookDirs
  case queen => exact fun _ => neg_mem_kingDirs
  all_goals simp [slideDirs]

theorem mem_walk_seven {occ : Square → Bool} {d : Dir} (hd : d ∈ kingDirs) {s t : Square} :
    t ∈ walk occ d 7 s ↔ ∃ k, Reaches occ s d k t := by
  rw [mem_walk]
  constructor
  · rintro ⟨k, _, h⟩
    exact ⟨k, h⟩
  · rintro ⟨k, h⟩
    have := along_lt_eight hd h.2.1
    exact ⟨k, by omega, h⟩

theorem mem_reach_iff_slides {man : Placement} {c : Color} {p : Piece} {s t : Square} :
    t ∈ reach man c p s ↔
      (∃ d ∈ leapDirs c p, Along s d 1 t) ∨ Slides (slideDirs p) (occupied man) s t := by
  simp only [reach, List.mem_append, List.mem_filterMap, step_eq_some, List.mem_flatMap, Slides]
  constructor
  · rintro (h | ⟨d, hd, h⟩)
    · exact Or.inl h
    · exact Or.inr ⟨d, hd, (mem_walk_seven (slideDirs_unit p d hd)).mp h⟩
  · rintro (h | ⟨d, hd, h⟩)
    · exact Or.inl h
    · exact Or.inr ⟨d, hd, (mem_walk_seven (slideDirs_unit p d hd)).mpr h⟩

/-- A leap is a unit step or changes both coordinates by different amounts. -/
theorem leapDirs_cases {c : Color} {p : Piece} {d : Dir} (h : d ∈ leapDirs c p) :
    d ∈ kingDirs ∨ (d.1 ≠ 0 ∧ d.2 ≠ 0 ∧ d.1 ≠ d.2 ∧ d.1 ≠ -d.2) := by
  revert d
  cases c <;> cases p <;> decide

/-- Nothing lies between the ends of a leap. -/
theorem not_between_of_leap {c : Color} {p : Piece} {s t u : Square} {d : Dir}
    (hd : d ∈ leapDirs c p) (h : Along s d 1 t) : ¬ Between s t u := by
  rintro ⟨e, he, i, j, h0, hij, _, ht⟩
  rcases leapDirs_cases hd with hk | ⟨h1, h2, h3, h4⟩
  · have := (Along.unit_unique hk he Nat.one_pos (by omega) h ht).2
    omega
  · have hx : d.1 = j * e.1 := by have := h.1; have := ht.1; push_cast at *; omega
    have hy : d.2 = j * e.2 := by have := h.2; have := ht.2; push_cast at *; omega
    obtain ⟨e1, e2, e3, e4, _⟩ := unit_bounds he
    have c1 : e.1 = -1 ∨ e.1 = 0 ∨ e.1 = 1 := by omega
    have c2 : e.2 = -1 ∨ e.2 = 0 ∨ e.2 = 1 := by omega
    rcases c1 with c1 | c1 | c1 <;> rcases c2 with c2 | c2 | c2 <;> rw [c1] at hx <;>
      rw [c2] at hy <;> omega

/-- **An attack is a matter of geometry and of a clear line.** -/
theorem mem_reach {man : Placement} {c : Color} {p : Piece} {s t : Square} :
    t ∈ reach man c p s ↔ Geometry c p s t ∧ ∀ u, Between s t u → man u = none := by
  rw [mem_reach_iff_slides, slides_iff (slideDirs_unit p)]
  have hocc : ∀ u, occupied man u = false ↔ man u = none := by
    intro u; unfold occupied; cases man u <;> simp
  simp only [hocc]
  constructor
  · rintro (⟨d, hd, h⟩ | ⟨ha, hc⟩)
    · exact ⟨Or.inl ⟨d, hd, h⟩, fun u hu => absurd hu (not_between_of_leap hd h)⟩
    · exact ⟨Or.inr ha, hc⟩
  · rintro ⟨h | h, hc⟩
    · exact Or.inl h
    · exact Or.inr ⟨h, hc⟩

/-- An attack is not stopped by changes off its line. -/
theorem mem_reach_of_clear {man man' : Placement} {c : Color} {p : Piece} {s t : Square}
    (h : t ∈ reach man c p s) (hc : ∀ u, Between s t u → man u = none → man' u = none) :
    t ∈ reach man' c p s := by
  obtain ⟨hg, hclear⟩ := mem_reach.mp h
  exact mem_reach.mpr ⟨hg, fun u hu => hc u hu (hclear u hu)⟩

theorem leapDirs_neg {c : Color} {p : Piece} {d : Dir} (h : d ∈ leapDirs c p) :
    -d ∈ leapDirs c.xside p := by
  revert d
  cases c <;> cases p <;> decide

/-- Attacks can be read backwards, as long as pawns change their side. -/
theorem Geometry.symm {c : Color} {p : Piece} {s t : Square} (h : Geometry c p s t) :
    Geometry c.xside p t s := by
  rcases h with ⟨d, hd, h⟩ | h
  · exact Or.inl ⟨-d, leapDirs_neg hd, h.symm⟩
  · exact Or.inr (h.symm (slideDirs_neg p))

theorem mem_reach_comm {man : Placement} {c : Color} {p : Piece} {s t : Square} :
    t ∈ reach man c p s ↔ s ∈ reach man c.xside p t := by
  rw [mem_reach, mem_reach]
  constructor
  · rintro ⟨hg, hc⟩
    exact ⟨hg.symm, fun u hu => hc u hu.symm⟩
  · rintro ⟨hg, hc⟩
    refine ⟨?_, fun u hu => hc u hu.symm⟩
    have := hg.symm
    rwa [xside_xside] at this

theorem Geometry.ne {c : Color} {p : Piece} {s t : Square} (h : Geometry c p s t) : s ≠ t := by
  rcases h with ⟨d, hd, h⟩ | ⟨d, hd, k, hk, h⟩
  · rintro rfl
    have hx := h.1
    rcases leapDirs_cases hd with hk | ⟨h1, _⟩
    · exact (Along.ne hk Nat.one_pos h) rfl
    · exact h1 (by simpa using hx)
  · exact h.ne (slideDirs_unit p d hd) hk

theorem ne_of_mem_reach {man : Placement} {c : Color} {p : Piece} {s t : Square}
    (h : t ∈ reach man c p s) : s ≠ t :=
  (mem_reach.mp h).1.ne

/-! ## Deciding whether a move is legal -/

instance (s t u : Square) : Decidable (Between s t u) :=
  decidable_of_iff _ (mem_rayBb s t u)

instance (pos : Position) : DecidablePred pos.Pseudo
  | .move .. => inferInstanceAs (Decidable ((_ ∧ _ ∧ _) ∧ ¬ (_ ∧ _)))
  | .promote .. => inferInstanceAs (Decidable ((_ ∧ _ ∧ _) ∧ _ ∧ _))
  | .enpassant .. => inferInstanceAs (Decidable (_ ∧ _ ∧ _))
  | .castle _ => inferInstanceAs (Decidable (_ ∧ _ ∧ _ ∧ _ ∧ (∀ _, _ → _) ∧ ¬ _ ∧ ¬ _))

instance (pos : Position) (ply : Ply) : Decidable (pos.Legal ply) :=
  inferInstanceAs (Decidable (_ ∧ _))

end Rules

end HoiChess.Chess
