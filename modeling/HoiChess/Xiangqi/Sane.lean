import HoiChess.Lib.Incremental
import HoiChess.Xiangqi.Attack

/-!
# Xiangqi positions that can arise

`Sane` collects what holds of every position that legal play reaches: one general on each side,
generals and advisers in their palaces and elephants on their half, no more men than a move
list has room for (`Valid`), and the side that just moved not in danger.  `Sane.apply` shows that
a legal move preserves it; what a move does to the generals is said once, in
`placement_king`.
-/

namespace HoiChess.Xiangqi.Rules

open Grid Incremental
open Chess (Color)

/-- How many squares a man of side `c` may attack at most. -/
def manMobility (c : Color) : Option Man → ℤ
  | none => 0
  | some (d, p) => if d = c then (Board.mobility p : ℤ) else 0

theorem manMobility_nonneg (c : Color) (m : Option Man) : 0 ≤ manMobility c m := by
  cases m with
  | none => exact le_refl 0
  | some m =>
    simp only [manMobility]
    split
    · exact Int.natCast_nonneg _
    · exact le_refl 0

/-- What is known of a position before it is known that the side that moved is safe. -/
structure Valid (pos : Position) : Prop where
  king_exists : ∀ c, ∃ k, pos.man k = some (c, .king)
  king_unique : ∀ c k k', pos.man k = some (c, .king) → pos.man k' = some (c, .king) → k = k'
  inPlace : ∀ c p sq, pos.man sq = some (c, p) → InPlace c sq p
  room : ∀ c, ∑ sq, manMobility c (pos.man sq) ≤ 256

structure Sane (pos : Position) : Prop extends Valid pos where
  safe : pos.Safe

variable {pos : Position} {ply : Ply}

theorem Position.placement_eq (pos : Position) (ply : Ply) (sq : Square) :
    pos.placement ply sq =
      if sq = ply.dst then some (pos.side, ply.piece)
      else if sq = ply.src then none else pos.man sq := by
  unfold Position.placement
  simp only [Function.update_apply]

namespace Position.Pseudo

theorem src_ne_dst (h : pos.Pseudo ply) : ply.src ≠ ply.dst := by
  intro e
  have hs := h.man_src
  rw [e, h.man_dst] at hs
  cases hc : ply.cap with
  | none => rw [hc] at hs; cases hs
  | some q =>
    rw [hc] at hs
    exact absurd (congrArg Prod.fst (Option.some.inj hs)) (Chess.xside_ne pos.side)

/-- A general in danger could be taken, so a safe one is not. -/
theorem cap_ne_king (h : pos.Pseudo ply) (hsafe : pos.Safe) : ply.cap ≠ some .king := by
  intro hc
  have hd := h.man_dst
  rw [hc] at hd
  exact hsafe.2 ply.dst hd ⟨ply, h, rfl⟩

/-- What a move does to the generals. -/
theorem placement_king (h : pos.Pseudo ply) (hv : Valid pos) (hsafe : pos.Safe) (c : Color)
    (k : Square) :
    pos.placement ply k = some (c, .king) ↔
      if c = pos.side ∧ ply.piece = .king then k = ply.dst else pos.man k = some (c, .king) := by
  have hs := h.man_src
  have hd := h.man_dst
  have hne := h.src_ne_dst
  rw [Position.placement_eq]
  by_cases hkd : k = ply.dst
  · rw [if_pos hkd, hkd]
    split
    · rename_i hc
      rw [hc.1, hc.2]
      exact iff_of_true rfl rfl
    · rename_i hc
      refine iff_of_false (fun e => hc ?_) (fun e => ?_)
      · have e' := Prod.mk.inj (Option.some.inj e)
        exact ⟨e'.1.symm, e'.2⟩
      · rw [hd] at e
        cases hcap : ply.cap with
        | none => rw [hcap] at e; cases e
        | some q =>
          rw [hcap] at e
          cases e
          exact h.cap_ne_king hsafe hcap
  · rw [if_neg hkd]
    by_cases hks : k = ply.src
    · rw [if_pos hks]
      refine iff_of_false (fun e => by cases e) (fun e => ?_)
      split at e
      · exact hkd e
      · rename_i hc
        rw [hks, hs] at e
        have e' := Prod.mk.inj (Option.some.inj e)
        exact hc ⟨e'.1.symm, e'.2⟩
    · rw [if_neg hks]
      split
      · rename_i hc
        refine iff_of_false (fun e => hks ?_) hkd
        rw [hc.2, ← hc.1] at hs
        exact hv.king_unique c k ply.src e hs
      · rfl

end Position.Pseudo

/-! ## What a move keeps -/

/-- A move leads to where the piece may stand. -/
theorem Moves.inPlace {man : Placement} {c : Color} {taking : Bool} {s t : Square} {p : Piece}
    (h : Moves man c taking s t p) : InPlace c t p := by
  cases p with
  | pawn => trivial
  | guard => exact h.1
  | elephant => exact h.1
  | knight => trivial
  | cannon => trivial
  | rook => trivial
  | king => exact h.1

namespace Valid

theorem apply (hv : Valid pos) (hsafe : pos.Safe) (h : pos.Pseudo ply) : Valid (pos.apply ply) where
  king_exists c := by
    by_cases hc : c = pos.side ∧ ply.piece = .king
    · exact ⟨ply.dst, (h.placement_king hv hsafe c _).mpr (by rw [if_pos hc])⟩
    · obtain ⟨k, hk⟩ := hv.king_exists c
      exact ⟨k, (h.placement_king hv hsafe c _).mpr (by rw [if_neg hc]; exact hk)⟩
  king_unique c k k' hk hk' := by
    have h1 := (h.placement_king hv hsafe c k).mp hk
    have h2 := (h.placement_king hv hsafe c k').mp hk'
    by_cases hc : c = pos.side ∧ ply.piece = .king
    · rw [if_pos hc] at h1 h2
      rw [h1, h2]
    · rw [if_neg hc] at h1 h2
      exact hv.king_unique c k k' h1 h2
  inPlace c p sq hm := by
    have hm' : pos.placement ply sq = some (c, p) := hm
    rw [Position.placement_eq] at hm'
    split at hm'
    · rename_i hsq
      cases hm'
      rw [hsq]
      exact h.moves.inPlace
    · split at hm'
      · cases hm'
      · exact hv.inPlace c p sq hm'
  room c := by
    have hsum : ∑ sq, manMobility c (pos.placement ply sq) =
        ∑ sq, manMobility c (pos.man sq) - manMobility c (pos.man ply.src) + 0
          - manMobility c (pos.man ply.dst) + manMobility c (some (pos.side, ply.piece)) := by
      have h1 := sum_update (fun sq => manMobility c (pos.man sq)) ply.src (manMobility c none)
      have h2 := sum_update
        (Function.update (fun sq => manMobility c (pos.man sq)) ply.src (manMobility c none))
        ply.dst (manMobility c (some (pos.side, ply.piece)))
      rw [Function.update_of_ne h.src_ne_dst.symm, h1] at h2
      rw [← show manMobility c none = 0 from rfl, ← h2]
      refine Finset.sum_congr rfl fun sq _ => ?_
      rw [Position.placement_eq]
      simp only [Function.update_apply]
      split
      · rfl
      · split <;> rfl
    have hle := hv.room c
    have hdst := manMobility_nonneg c (pos.man ply.dst)
    have hpos : (pos.apply ply).man = pos.placement ply := rfl
    rw [hpos, hsum, h.man_src]
    omega

theorem pass (hv : Valid pos) : Valid pos.pass :=
  ⟨hv.king_exists, hv.king_unique, hv.inPlace, hv.room⟩

end Valid

namespace Sane

/-- **A legal move leads from a sane position to a sane one.** -/
theorem apply (hs : Sane pos) (h : pos.Legal ply) : Sane (pos.apply ply) :=
  ⟨hs.toValid.apply hs.safe h.1, h.2⟩

/-- When not in check, one may pass. -/
theorem pass (hs : Sane pos) (h : ¬ pos.InCheck) : Sane pos.pass :=
  ⟨hs.toValid.pass, not_not.mp h⟩

end Sane

/-! ## The opening position -/

def backRank (f : Nat) : Piece :=
  match f with
  | 0 | 8 => .rook
  | 1 | 7 => .knight
  | 2 | 6 => .elephant
  | 3 | 5 => .guard
  | _ => .king

/-- The men of one side, by rank as the side counts and file. -/
def openingPiece (r f : Nat) : Option Piece :=
  if r = 0 then some (backRank f)
  else if r = 2 ∧ (f = 1 ∨ f = 7) then some .cannon
  else if r = 3 ∧ f % 2 = 0 then some .pawn
  else none

def openingMan (sq : Square) : Option Man :=
  if rnk sq ≤ rank4 then (openingPiece (rnk sq) (fil sq)).map (fun p => (.white, p))
  else (openingPiece (9 - rnk sq) (fil sq)).map (fun p => (.black, p))

def opening : Position := ⟨openingMan, .white⟩

end HoiChess.Xiangqi.Rules
