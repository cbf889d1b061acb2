import HoiChess.Chess.Fen
import HoiChess.Xiangqi.Legality

/-!
# Reading a xiangqi FEN

`parse_fen` scans four fields, places the men while it reads the first one and accepts the
position if `is_valid` and `is_legal` hold.  A man placed off the board and a walk of
`kings_facing` that leaves it have no defined outcome; that is `FenResult.undefined`.
-/

namespace HoiChess.Xiangqi

open Grid Rules
open Chess (Color PerColor scanWord scanChar scanInt)

structure FenFields where
  pos : List Char
  clr : Char
  hmc : Int
  fmc : Int
  deriving DecidableEq

/-- `sscanf(s, "%160s %c %d %d", ..)` -/
def scanFen (s : List Char) : Option FenFields := do
  let (pos, s) ← scanWord 160 s
  let (clr, s) ← scanChar s
  let (hmc, s) ← scanInt s
  let (fmc, _) ← scanInt s
  return ⟨pos, clr, hmc, fmc⟩

/-! ## The placement field -/

/-- `piece_char`, upper case for White. -/
def fenPiece : Char → Option Man
  | 'P' => some (.white, .pawn)
  | 'A' => some (.white, .guard)
  | 'E' => some (.white, .elephant)
  | 'H' => some (.white, .knight)
  | 'C' => some (.white, .cannon)
  | 'R' => some (.white, .rook)
  | 'K' => some (.white, .king)
  | 'p' => some (.black, .pawn)
  | 'a' => some (.black, .guard)
  | 'e' => some (.black, .elephant)
  | 'h' => some (.black, .knight)
  | 'c' => some (.black, .cannon)
  | 'r' => some (.black, .rook)
  | 'k' => some (.black, .king)
  | _ => none

/-- A call `place_piece(SQUARE(rnk, fil), ..)`. -/
structure Placing where
  rnk : Int
  fil : Nat
  man : Man
  deriving DecidableEq, Repr

/-- `SQUARE(rnk, fil)` -/
def Placing.index (p : Placing) : Int := p.rnk * 9 + p.fil

/-- The square of the call, if its index is one. -/
def Placing.sq (p : Placing) : Option Square :=
  if h : 0 ≤ p.index ∧ p.index < 90 then some ⟨p.index.toNat, by omega⟩ else none

/-- `while (*p)`: the calls made, and whether the field was read to its end. -/
def placeLoop : List Char → Int → Nat → List Placing × Bool
  | [], _, _ => ([], true)
  | c :: cs, rnk, fil =>
    if fil > 8 + 1 ∨ rnk < 0 then ([], false)
    else if c.isDigit then placeLoop cs rnk (fil + (c.toNat - '0'.toNat))
    else if c = '/' then placeLoop cs (rnk - 1) 0
    else
      match fenPiece c with
      | some m =>
        let (l, ok) := placeLoop cs rnk (fil + 1)
        (⟨rnk, fil, m⟩ :: l, ok)
      | none => ([], false)

inductive FenResult where
  | rejected
  | accepted (b : Board)
  | undefined

namespace Board

variable [Keys]

def isValid (b : Board) : Bool := !b.isAttacked (b.getKing b.side.xside) b.side

/-- `is_valid() && is_legal()`, if the walk between the kings has an outcome. -/
def checked (b : Board) : FenResult :=
  if !b.isValid then .rejected
  else if b.kingsFacingWalk = none then .undefined
  else if b.isLegal then .accepted b
  else .rejected

/-- The board after the calls, unless one of them is off the board. -/
def placeAll (b : Board) : List Placing → Option Board
  | [] => some b
  | p :: ps =>
    match p.sq with
    | none => none
    | some sq => placeAll (b.placePiece sq p.man.1 p.man.2) ps

def parseFenFields (f : FenFields) : FenResult :=
  let (ps, complete) := placeLoop f.pos 9 0
  match clear.placeAll ps with
  | none => .undefined
  | some b =>
    if complete then
      match Chess.Board.sideOfChar f.clr with
      | none => .rejected
      | some c => checked { b.setSide c with movecnt50 := f.hmc, moveno := f.fmc }
    else .rejected

/-- `parse_fen`; the text ends at its first NUL. -/
def parseFen (s : String) : FenResult :=
  match scanFen (s.toList.takeWhile (fun c => c ≠ '\x00')) with
  | none => .rejected
  | some f => parseFenFields f

end Board

def openingFen : String :=
  "rheakaehr/9/1c5c1/p1p1p1p1p/9/9/P1P1P1P1P/1C5C1/9/RHEAKAEHR w 0 1"

/-! ## The calls of `place_piece` -/

theorem Placing.sq_eq_some {p : Placing} {sq : Square} :
    p.sq = some sq ↔ p.index = (sq.val : Int) := by
  unfold Placing.sq
  have hs := sq.isLt
  constructor
  · intro h
    split at h
    · cases h
      simp only
      omega
    · cases h
  · intro h
    rw [dif_pos (by omega)]
    exact congrArg some (Fin.ext (by simp only; omega))

theorem fenPiece_of_isDigit {c : Char} (h : c.isDigit = true) : fenPiece c = none := by
  unfold fenPiece
  split
  all_goals first | exact absurd h (by decide) | rfl

/-- The placement after a list of calls. -/
def placed (man : Placement) (ps : List Placing) : Placement :=
  ps.foldl (fun man p => match p.sq with
    | none => man
    | some sq => Function.update man sq (some p.man)) man

/-- A call with a square places its man there. -/
theorem placed_cons {man : Placement} {p : Placing} {sq : Square} (h : p.sq = some sq)
    (ps : List Placing) :
    placed man (p :: ps) = placed (Function.update man sq (some p.man)) ps := by
  rw [placed, List.foldl_cons, h]
  rfl

/-- A call without a square does nothing. -/
theorem placed_cons_of_none {man : Placement} {p : Placing} (h : p.sq = none) (ps : List Placing) :
    placed man (p :: ps) = placed man ps := by
  rw [placed, List.foldl_cons, h]
  rfl

section Calls

variable [Keys]

/-- A man that is placed and whether its king square is known. -/
def KingSeen (b : Board) (man : Placement) : Prop :=
  ∀ c k, man k = some (c, .king) → b.getKing c ≠ none

theorem KingSeen.placePiece {b : Board} {man : Placement} (h : KingSeen b man) (sq : Square)
    (c : Color) (p : Piece) :
    KingSeen (b.placePiece sq c p) (Function.update man sq (some (c, p))) := by
  intro d k hk
  show (if p = .king then b.king.set c (some sq) else b.king).get d ≠ none
  have hold : (c = d → p ≠ .king) → b.getKing d ≠ none := by
    intro hne
    apply h d k
    rwa [Function.update_of_ne] at hk
    rintro rfl
    rw [Function.update_self] at hk
    have e := Prod.mk.inj (Option.some.inj hk)
    exact hne e.1 e.2
  by_cases hp : p = .king
  · rw [if_pos hp, PerColor.get_set]
    split
    · exact Option.some_ne_none _
    · rename_i hc
      exact hold (fun e => absurd e hc)
  · rw [if_neg hp]
    exact hold (fun _ => hp)

/-- **Calls for different empty squares build a consistent board.** -/
theorem placeAll_consistent {b : Board} {man : Placement} (h : Consistent b man)
    (hk : KingSeen b man) {ps : List Placing}
    (hfree : ∀ p ∈ ps, ∃ sq, p.sq = some sq ∧ man sq = none)
    (hne : ps.Pairwise (fun p q => p.index ≠ q.index)) :
    ∃ b', b.placeAll ps = some b' ∧ Consistent b' (placed man ps) ∧ KingSeen b' (placed man ps) ∧
      b'.side = b.side := by
  induction ps generalizing b man with
  | nil => exact ⟨b, rfl, h, hk, rfl⟩
  | cons p ps ih =>
    obtain ⟨sq, hsq, hnone⟩ := hfree p List.mem_cons_self
    rw [List.pairwise_cons] at hne
    have hfree' : ∀ q ∈ ps, ∃ t, q.sq = some t ∧
        Function.update man sq (some (p.man.1, p.man.2)) t = none := by
      intro q hq
      obtain ⟨t, ht, hm⟩ := hfree q (List.mem_cons_of_mem _ hq)
      refine ⟨t, ht, ?_⟩
      rw [Function.update_of_ne, hm]
      rintro rfl
      have e1 := Placing.sq_eq_some.mp hsq
      have e2 := Placing.sq_eq_some.mp ht
      exact hne.1 q hq (e1.trans e2.symm)
    obtain ⟨b', hb', hc, hks, hside⟩ := ih (h.placePiece p.man.1 p.man.2 hnone)
      (hk.placePiece sq p.man.1 p.man.2) hfree' hne.2
    refine ⟨b', ?_, ?_, ?_, hside⟩
    · rw [Board.placeAll, hsq]
      exact hb'
    · rw [placed_cons hsq]
      exact hc
    · rw [placed_cons hsq]
      exact hks

/-- What `set_side` leaves alone. -/
theorem Board.setSide_frame (b : Board) (c : Color) :
    (b.setSide c).positionPieces = b.positionPieces ∧
      (b.setSide c).positionColors = b.positionColors ∧ (b.setSide c).king = b.king ∧
      (b.setSide c).side = c := by
  unfold Board.setSide
  split
  · rename_i hne
    refine ⟨rfl, rfl, rfl, ?_⟩
    show b.side.xside = c
    exact (Chess.eq_xside_of_ne (Ne.symm hne)).symm
  · rename_i he
    exact ⟨rfl, rfl, rfl, not_not.mp he⟩

theorem Consistent.setSide {b : Board} {man : Placement} (h : Consistent b man) (c : Color) :
    Consistent (b.setSide c) man := by
  unfold Board.setSide
  split
  · exact h.switchSides
  · exact h

theorem eq_of_checked {b b' : Board} (h : b.checked = .accepted b') : b' = b := by
  unfold Board.checked at h
  split at h
  · cases h
  split at h
  · cases h
  split at h
  · exact (FenResult.accepted.inj h).symm
  · cases h

/-- **A board that represents a safe position is accepted.** -/
theorem Sim.checked {b : Board} {pos : Position} (h : Sim b pos) (hs : Sane pos) :
    b.checked = .accepted b := by
  obtain ⟨k, hk⟩ := hs.king_exists pos.side.xside
  obtain ⟨r, hr, _⟩ := h.kingsFacingWalk hs.toValid
  have hvalid : b.isValid = true := by
    unfold Board.isValid
    rw [h.side, h.king _ _ hk, Bool.not_eq_true', ← Bool.not_eq_true, h.isAttacked hs.toValid]
    exact hs.safe.2 k hk
  unfold Board.checked
  rw [hvalid, hr, (h.isLegal hs.toValid).mpr hs.safe]
  rfl

end Calls

end HoiChess.Xiangqi
