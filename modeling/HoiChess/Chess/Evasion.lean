import HoiChess.Chess.Sane

/-!
# Getting out of check

What the rules say about a legal move of a side that is in check.  A king
moves to a square that is not attacked, not even through the square it leaves
(`Legal.king_dst`).  Any other move captures every checking man or steps onto
its line (`Legal.meets`), so with two checking men only the king moves
(`Legal.checker_unique`), and no en passant capture steps onto a line, because
such a line would have passed over both squares of the double step.
-/

namespace HoiChess.Chess.Rules

open Grid

variable {pos : Position}

/-- The man on `s` gives check to the king on `k`. -/
def Position.Checks (pos : Position) (s k : Square) : Prop :=
  pos.man k = some (pos.side, .king) ∧
    ∃ p, pos.man s = some (pos.side.xside, p) ∧ k ∈ reach pos.man pos.side.xside p s

theorem Position.Checks.clear {s k u : Square} (h : pos.Checks s k) (hu : Between s k u) :
    pos.man u = none := by
  obtain ⟨_, p, _, hr⟩ := h
  exact (mem_reach.mp hr).2 u hu

theorem Position.Checks.ne_none {s k : Square} (h : pos.Checks s k) : pos.man s ≠ none := by
  obtain ⟨_, p, hp, _⟩ := h
  rw [hp]
  exact Option.some_ne_none _

theorem Position.inCheck_iff : pos.InCheck ↔ ∃ s k, pos.Checks s k := by
  constructor
  · intro ⟨k, hk, s, p, hs, hr⟩
    exact ⟨s, k, hk, p, hs, hr⟩
  · intro ⟨s, k, hk, p, hs, hr⟩
    exact ⟨k, hk, s, p, hs, hr⟩

/-- Nothing lies between a pawn or a knight and what it attacks. -/
theorem Position.Checks.not_between {s k u : Square} {p : Piece} (h : pos.Checks s k)
    (hm : pos.man s = some (pos.side.xside, p)) (hp : p = .pawn ∨ p = .knight) :
    ¬ Between s k u := by
  obtain ⟨_, p', hp', hr⟩ := h
  obtain rfl : p' = p := congrArg Prod.snd (Option.some.inj (hp'.symm.trans hm))
  rcases (mem_reach.mp hr).1 with ⟨d, hd, ha⟩ | ⟨d, hd, _⟩
  · exact not_between_of_leap hd ha
  · rcases hp with rfl | rfl <;> cases hd

/-- The captured piece of a move is the man that stands there. -/
theorem Position.Carries.cap_of_man {src dst : Square} {p q : Piece} {cap : Option Piece}
    (hc : pos.Carries src dst p cap) (hd : pos.man dst = some (pos.side.xside, q)) :
    cap = some q := by
  have e := hd.symm.trans hc.2.1
  cases cap with
  | none => cases e
  | some q' => exact (congrArg Option.some (congrArg Prod.snd (Option.some.inj e))).symm

theorem Position.Carries.cap_of_none {src dst : Square} {p : Piece} {cap : Option Piece}
    (hc : pos.Carries src dst p cap) (hd : pos.man dst = none) : cap = none := by
  have e := hd.symm.trans hc.2.1
  cases cap with
  | none => rfl
  | some q => cases e

/-- Two lines of check do not share a square. -/
theorem Position.Checks.eq_of_between {s s' k u : Square} (h : pos.Checks s k)
    (h' : pos.Checks s' k) (hu : Between s k u) (hu' : Between s' k u) : s = s' := by
  rcases hu.symm.nested hu'.symm with e | hb | hb
  · exact e
  · exact absurd (h.clear hb.symm) h'.ne_none
  · exact absurd (h'.clear hb.symm) h.ne_none

/-- Without castling a move fills no square but its destination. -/
theorem Position.Pseudo.placement_none {ply : Ply} (h : pos.Pseudo ply)
    (hc : ply.rookMove = none) {u : Square} (hu : pos.man u = none) (hd : u ≠ ply.dst) :
    pos.placement ply u = none := by
  rw [placement_eq h, if_neg hd]
  split
  · rfl
  · rw [hc]
    exact hu

theorem rookMove_of_piece {ply : Ply} (h : ply.piece ≠ .king) : ply.rookMove = none := by
  cases ply with
  | castle f => exact absurd rfl h
  | _ => rfl

/-- **A move of another man captures the checking man or steps onto its line.** -/
theorem Position.Legal.meets (hs : Sane pos) {ply : Ply} (h : pos.Legal ply)
    (hking : ply.piece ≠ .king) {s k : Square} (hchk : pos.Checks s k) :
    ply.victim = some s ∨ Between s k ply.dst := by
  obtain ⟨hp, hsafe⟩ := h
  obtain ⟨hk, p, hsp, hr⟩ := hchk
  by_contra hno
  obtain ⟨hv, hb⟩ := not_or.mp hno
  have hk' : pos.placement ply k = some (pos.side, .king) :=
    (placement_king hs hp k).mpr (by rw [if_neg hking]; exact hk)
  have hs' : pos.placement ply s = some (pos.side.xside, p) :=
    (placement_enemy hs hp s p).mpr ⟨hsp, hv⟩
  have hr' : k ∈ reach (pos.placement ply) pos.side.xside p s := by
    refine mem_reach_of_clear hr fun u hu hn => ?_
    exact hp.placement_none (rookMove_of_piece hking) hn (fun e => hb (e ▸ hu))
  refine hsafe k ?_ ⟨s, p, hs', hr'⟩
  change pos.placement ply k = some (pos.side.xside.xside, .king)
  rw [xside_xside, hk']

/-- A king does not move to an attacked square. -/
theorem Position.Legal.king_dst (hs : Sane pos) {src dst : Square} {cap : Option Piece}
    (h : pos.Legal (.move src dst .king cap)) : ¬ Attacked pos.man pos.side.xside dst := by
  obtain ⟨hp, hsafe⟩ := h
  rintro ⟨s, p, hsp, hr⟩
  have hne : s ≠ dst := ne_of_mem_reach hr
  have hs' : pos.placement (.move src dst .king cap) s = some (pos.side.xside, p) := by
    refine (placement_enemy hs hp s p).mpr ⟨hsp, ?_⟩
    cases cap with
    | none => exact fun e => by cases e
    | some q => exact fun e => hne (Option.some.inj e).symm
  have hr' : dst ∈ reach (pos.placement (.move src dst .king cap)) pos.side.xside p s :=
    mem_reach_of_clear hr fun u hu hn => hp.placement_none rfl hn hu.ne_right.symm
  have hk' : pos.placement (.move src dst .king cap) dst = some (pos.side, .king) :=
    (placement_king hs hp dst).mpr (by simp [Ply.piece, Ply.dst])
  refine hsafe dst ?_ ⟨s, p, hs', hr'⟩
  change pos.placement (.move src dst .king cap) dst = some (pos.side.xside.xside, .king)
  rw [xside_xside, hk']

/-- Castling is no way out of check. -/
theorem Position.Pseudo.not_castle {f : CastleFlag} {s k : Square} (hs : Sane pos)
    (hchk : pos.Checks s k) : ¬ pos.Pseudo (.castle f) := by
  rintro ⟨_, _, hk, _, _, hn, _⟩
  obtain ⟨hk', p, hsp, hr⟩ := hchk
  rw [hs.king_unique _ _ _ hk' hk] at hr
  exact hn ⟨s, p, hsp, hr⟩

/-- An en passant capture does not step onto a line of check. -/
theorem Sane.ep_not_between (hs : Sane pos) {e s k : Square} (he : pos.ep = some e)
    (hchk : pos.Checks s k) : ¬ Between s k e := by
  obtain ⟨hk, p, hsp, hr⟩ := hchk
  exact (hs.ep e he).line k s p hk hsp hr

/-- What is captured off the destination is captured en passant. -/
theorem Ply.victim_cases {ply : Ply} {s : Square} (h : ply.victim = some s) :
    s = ply.dst ∨ ∃ src dst, ply = .enpassant src dst ∧ s = epVictim src dst := by
  cases ply with
  | move src dst p cap => cases cap <;> cases h; exact Or.inl rfl
  | promote src dst p cap => cases cap <;> cases h; exact Or.inl rfl
  | enpassant src dst => cases h; exact Or.inr ⟨src, dst, rfl, rfl⟩
  | castle f => cases h

/-- A capture does not step onto another line of check. -/
theorem Position.Legal.victim_not_between (hs : Sane pos) {ply : Ply} (h : pos.Legal ply)
    {s s' k : Square} (hchk : pos.Checks s k) (hchk' : pos.Checks s' k)
    (hv : ply.victim = some s) : ¬ Between s' k ply.dst := by
  intro hb
  rcases ply.victim_cases hv with rfl | ⟨src, dst, rfl, _⟩
  · exact hchk.ne_none (hchk'.clear hb)
  · exact hs.ep_not_between h.1.2.1 hchk' hb

/-- **In double check only the king moves.** -/
theorem Position.Legal.checker_unique (hs : Sane pos) {ply : Ply} (h : pos.Legal ply)
    (hking : ply.piece ≠ .king) {s s' k : Square} (hchk : pos.Checks s k)
    (hchk' : pos.Checks s' k) : s = s' := by
  rcases h.meets hs hking hchk with hv | hb
  · rcases h.meets hs hking hchk' with hv' | hb'
    · exact Option.some.inj (hv.symm.trans hv')
    · exact absurd hb' (h.victim_not_between hs hchk hchk' hv)
  · rcases h.meets hs hking hchk' with hv' | hb'
    · exact absurd hb (h.victim_not_between hs hchk' hchk hv')
    · exact hchk.eq_of_between hchk' hb hb'

end HoiChess.Chess.Rules
