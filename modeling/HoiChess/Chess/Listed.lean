import HoiChess.Chess.Generate

/-!
# What the generators list

`Listed` describes the plies that the generators list on any board that
passes the validity check, also with castling flags or an en passant square
that no game produces: castling does not look for king and rook, and a pawn
captures onto the en passant square whatever is there.  On a sane position
this is `Pseudo` (`listed_iff_pseudo`).  No ply is listed twice.
-/

namespace HoiChess.Chess

open WordSet Grid Rules

namespace Rules

/-- What the generators list on a valid board. -/
def Position.Listed (pos : Position) : Ply → Prop
  | .move src dst p cap =>
    pos.Carries src dst p cap ∧ ¬ (p = .pawn ∧ rnk dst = lastRank pos.side) ∧
      ¬ (p = .pawn ∧ cap ≠ none ∧ pos.ep = some dst)
  | .promote src dst p cap =>
    pos.Carries src dst .pawn cap ∧ rnk dst = lastRank pos.side ∧ p ∈ promotionPieces
  | .enpassant src dst =>
    pos.man src = some (pos.side, .pawn) ∧ pos.ep = some dst ∧
      dst ∈ reach pos.man pos.side .pawn src ∧ rnk dst ≠ lastRank pos.side ∧
      ∀ p, pos.man dst ≠ some (pos.side, p)
  | .castle f =>
    f.color = pos.side ∧ pos.right f = true ∧
      (∀ u, Between f.kingHome f.rookHome u → pos.man u = none) ∧
      ¬ pos.InCheck ∧ ¬ Attacked pos.man pos.side.xside f.transit

namespace Ply

/-- A capture, a promotion or an en passant capture. -/
def isTactical (ply : Ply) : Bool := ply.captured.isSome || ply.isPromote

/-- With or without the promotions to bishop and rook. -/
def Chosen (allpromo : Bool) : Ply → Prop
  | promote _ _ p _ => p ∈ Board.promotionChoice allpromo
  | _ => True

end Ply

variable {pos : Position}

theorem mem_promotionChoice {allpromo : Bool} {p : Piece}
    (h : p ∈ Board.promotionChoice allpromo) : p ∈ promotionPieces := by
  cases allpromo
  · revert h; cases p <;> decide
  · exact h

/-- A pawn moves to the last rank exactly from the promotion rank. -/
theorem promotionRank_iff {man : Placement} {c : Color} {src dst : Square} {capturing : Bool}
    (h : dst ∈ targets man c .pawn capturing src) :
    mem (Board.promotionRank c) src = true ↔ rnk dst = lastRank c := by
  rw [promotes_iff h]
  cases c <;> exact (Bool.eq_iff_iff.mp (mem_rankBb _ src)).trans decide_eq_true_iff

/-- **On a sane position the generators list the pseudo-legal moves.** -/
theorem listed_iff_pseudo (hs : Sane pos) (ply : Ply) : pos.Listed ply ↔ pos.Pseudo ply := by
  cases ply with
  | move src dst p cap =>
    refine ⟨fun h => ⟨h.1, h.2.1⟩, fun h => ⟨h.1, h.2, ?_⟩⟩
    rintro ⟨_, hcap, hep⟩
    have hd := h.1.2.1
    rw [(hs.ep dst hep).empty] at hd
    cases cap with
    | none => exact hcap rfl
    | some q => cases hd
  | promote src dst p cap => exact Iff.rfl
  | enpassant src dst =>
    refine ⟨fun h => ⟨h.1, h.2.1, h.2.2.1⟩, fun h => ⟨h.1, h.2.1, h.2.2, ?_, ?_⟩⟩
    · rw [(hs.ep dst h.2.1).rank]
      cases pos.side <;> decide
    · intro p hp
      rw [(hs.ep dst h.2.1).empty] at hp
      cases hp
  | castle f =>
    constructor
    · rintro ⟨h1, h2, h3, h4, h5⟩
      obtain ⟨hk, hr⟩ := hs.rights f h2
      rw [h1] at hk hr
      exact ⟨h1, h2, hk, hr, h3, fun ha => h4 ⟨_, hk, ha⟩, h5⟩
    · rintro ⟨h1, h2, h3, h4, h5, h6, h7⟩
      refine ⟨h1, h2, h5, ?_, h7⟩
      rintro ⟨sq, hk, ha⟩
      rw [hs.king_unique _ _ _ hk h3] at ha
      exact h6 ha

end Rules

/-! ## Membership -/

theorem mem_pieces {p : Piece} : p ∈ Board.pieces ↔ p ≠ .pawn := by
  cases p <;> decide

section Members

variable [k : Build] {b : Board} {pos : Position}

theorem Sim.mem_movers (h : Sim b pos) (p : Piece) (sq : Square) :
    sq ∈ b.movers p ↔ pos.man sq = some (pos.side, p) := by
  unfold Board.movers
  split
  · rename_i hp
    subst hp
    rw [Option.mem_toList, h.side]
    exact ⟨h.consistent.king _ _, h.king _ _⟩
  · rw [mem_squares, h.consistent.mem_pos, h.side]

theorem Sim.inCheck (h : Sim b pos) (hk : ∃ sq, pos.man sq = some (pos.side, .king)) :
    b.inCheck = true ↔ pos.InCheck := by
  obtain ⟨sq, hsq⟩ := hk
  have hking := h.king _ _ hsq
  unfold Board.inCheck Board.kingAttacked
  rw [h.side, hking]
  simp only
  rw [isAttacked_iff h.consistent]
  constructor
  · exact fun ha => ⟨sq, hsq, ha⟩
  · rintro ⟨sq', hsq', ha⟩
    rw [h.king _ _ hsq'] at hking
    cases hking
    exact ha

theorem Sim.isLegal (h : Sim b pos) (hk : ∃ sq, pos.man sq = some (pos.side.xside, .king)) :
    b.isLegal = true ↔ pos.Safe := by
  obtain ⟨sq, hsq⟩ := hk
  have hking := h.king _ _ hsq
  unfold Board.isLegal Board.kingAttacked
  rw [h.side, hking]
  simp only [Bool.not_eq_true', ← Bool.not_eq_true]
  rw [xside_xside, isAttacked_iff h.consistent]
  constructor
  · intro ha sq' hsq'
    rw [h.king _ _ hsq'] at hking
    cases hking
    exact ha
  · exact fun ha => ha sq hsq

theorem Sim.mayCastle (h : Sim b pos) (f : CastleFlag) :
    b.mayCastle f = true ↔ pos.right f = true ∧
      (∀ u, Between f.kingHome f.rookHome u → pos.man u = none) ∧
      ¬ Attacked pos.man pos.side.xside f.transit := by
  unfold Board.mayCastle
  have hray : Bitboard.any (b.occupied &&& rayBb f.kingHome f.rookHome) = false ↔
      ∀ u, Between f.kingHome f.rookHome u → pos.man u = none := by
    rw [← Bool.not_eq_true, any_iff, not_exists]
    refine forall_congr' fun u => ?_
    rw [mem_and, Bool.and_eq_true, mem_rayBb, h.consistent.occ_eq, not_and', Bool.not_eq_true]
    refine imp_congr_right fun _ => ?_
    cases pos.man u <;> simp
  have hatt : b.isAttacked f.transit b.side.xside = false ↔
      ¬ Attacked pos.man pos.side.xside f.transit := by
    rw [← Bool.not_eq_true, isAttacked_iff h.consistent, h.side]
  rw [Bool.and_eq_true, Bool.and_eq_true, Bool.not_eq_true', Bool.not_eq_true', hray, hatt,
    h.rights f, and_assoc]

theorem Sim.mem_promotionPlies (h : Sim b pos) (hv : Valid pos) (allpromo : Bool) (ply : Ply) :
    ply ∈ b.promotionPlies allpromo ↔ ∃ src dst p cap, ply = .promote src dst p cap ∧
      pos.Carries src dst .pawn cap ∧ rnk dst = lastRank pos.side ∧
      p ∈ Board.promotionChoice allpromo := by
  have hrank : ∀ src, pos.man src = some (pos.side, .pawn) → rnk src ≠ lastRank pos.side := by
    intro src hm e
    have := hv.pawns _ _ hm
    cases hc : pos.side <;> rw [hc] at e <;> simp [lastRank] at e <;> omega
  simp only [Board.promotionPlies, List.mem_flatMap, mem_squares, mem_and, Bool.and_eq_true,
    List.mem_append, List.mem_map, h.side, h.consistent.mem_pos]
  constructor
  · rintro ⟨src, ⟨hs, hr⟩, ⟨dst, ⟨hd, ht⟩, p, hp, rfl⟩ | ⟨dst, hd, p, hp, rfl⟩⟩
    · obtain ⟨q, hq, hm⟩ := pieceAt_of_mem h.consistent ht
      have hreach := ((mem_pawnCaptures h.consistent _ _ _).mp hd).1
      refine ⟨src, dst, p, b.pieceAt dst, rfl, ⟨hs, ?_, ?_⟩, ?_, hp⟩
      · rw [hq, hm]; rfl
      · rw [hq, Option.isSome_some, targets_capture]; exact hreach
      · rw [← targets_capture] at hreach
        exact (promotionRank_iff hreach).mp hr
    · rw [mem_pawnNoncaptures h.consistent _ (hrank src hs)] at hd
      have hnone : pos.man dst = none := by
        rcases mem_pushes.mp hd with ⟨_, hn⟩ | ⟨_, _, hn, _⟩ <;> exact hn
      refine ⟨src, dst, p, none, rfl, ⟨hs, hnone, ?_⟩, ?_, hp⟩
      · rw [Option.isSome_none, targets_push]; exact hd
      · rw [← targets_push] at hd
        exact (promotionRank_iff hd).mp hr
  · rintro ⟨src, dst, p, cap, rfl, ⟨hs, hd, ht⟩, hl, hp⟩
    refine ⟨src, ⟨hs, (promotionRank_iff ht).mpr hl⟩, ?_⟩
    cases cap with
    | some q =>
      rw [Option.isSome_some, targets_capture] at ht
      refine Or.inl ⟨dst, ⟨?_, ?_⟩, p, hp, ?_⟩
      · rw [mem_pawnCaptures h.consistent]
        exact ⟨ht, Or.inl (by simp [hd])⟩
      · exact (h.consistent.mem_all _ _).mpr ⟨q, hd⟩
      · rw [h.consistent.pieceAt_eq, hd]; rfl
    | none =>
      rw [Option.isSome_none, targets_push] at ht
      refine Or.inr ⟨dst, ?_, p, hp, rfl⟩
      rw [mem_pawnNoncaptures h.consistent _ (hrank src hs)]
      exact ht

theorem Sim.mem_pawnCapturePlies (h : Sim b pos) (ply : Ply) :
    ply ∈ b.pawnCapturePlies ↔
      (∃ src dst, ply = .enpassant src dst ∧ pos.Listed (.enpassant src dst)) ∨
      ∃ src dst q, ply = .move src dst .pawn (some q) ∧
        pos.Listed (.move src dst .pawn (some q)) := by
  simp only [Board.pawnCapturePlies, List.mem_flatMap, mem_squares, mem_and, Bool.and_eq_true,
    List.mem_map, h.side, h.consistent.mem_pos, mem_not, Bool.not_eq_true', ← Bool.not_eq_true,
    h.consistent.mem_all, mem_pawnCaptures h.consistent, h.ep]
  constructor
  · rintro ⟨src, ⟨hs, hr⟩, dst, ⟨⟨hd, hocc⟩, hown⟩, rfl⟩
    have ht : dst ∈ targets pos.man pos.side .pawn true src := by rw [targets_capture]; exact hd
    have hl : rnk dst ≠ lastRank pos.side := fun e => hr ((promotionRank_iff ht).mpr e)
    by_cases hep : pos.ep = some dst
    · rw [if_pos hep.symm]
      exact Or.inl ⟨src, dst, rfl, hs, hep, hd, hl, fun p hp => hown ⟨p, hp⟩⟩
    · rw [if_neg (fun e => hep e.symm)]
      have hne := hocc.resolve_right hep
      cases hm : pos.man dst with
      | none => exact absurd hm hne
      | some m =>
        obtain ⟨c, q⟩ := m
        have hc : c = pos.side.xside := by
          apply eq_xside_of_ne
          rintro rfl
          exact hown ⟨q, hm⟩
        subst hc
        refine Or.inr ⟨src, dst, q, ?_, ⟨hs, hm, ht⟩, fun e => hl e.2, fun e => hep e.2.2⟩
        rw [h.consistent.pieceAt_eq, hm]
        rfl
  · rintro (⟨src, dst, rfl, hs, hep, hd, hl, hown⟩ | ⟨src, dst, q, rfl, ⟨hs, hm, ht⟩, hl, hep⟩)
    · have ht : dst ∈ targets pos.man pos.side .pawn true src := by rw [targets_capture]; exact hd
      refine ⟨src, ⟨hs, fun e => hl ((promotionRank_iff ht).mp e)⟩, dst, ⟨⟨hd, Or.inr hep⟩, ?_⟩, ?_⟩
      · rintro ⟨p, hp⟩
        exact hown p hp
      · rw [if_pos hep.symm]
    · have hd := ht
      rw [Option.isSome_some, targets_capture] at hd
      have hm' : pos.man dst = some (pos.side.xside, q) := hm
      have hne : pos.ep ≠ some dst := fun e => hep ⟨rfl, by simp, e⟩
      refine ⟨src, ⟨hs, fun e => hl ⟨rfl, (promotionRank_iff ht).mp e⟩⟩, dst,
        ⟨⟨hd, Or.inl (by simp [hm'])⟩, ?_⟩, ?_⟩
      · rintro ⟨p, hp⟩
        rw [hm'] at hp
        exact xside_ne pos.side (congrArg Prod.fst (Option.some.inj hp))
      · rw [if_neg (fun e => hne e.symm), h.consistent.pieceAt_eq, hm']
        rfl

theorem Sim.mem_pushPlies (h : Sim b pos) (hv : Valid pos) (ply : Ply) :
    ply ∈ b.pushPlies ↔ ∃ src dst, ply = .move src dst .pawn none ∧
      pos.Listed (.move src dst .pawn none) := by
  have hrank : ∀ src, pos.man src = some (pos.side, .pawn) → rnk src ≠ lastRank pos.side := by
    intro src hm e
    have := hv.pawns _ _ hm
    cases hc : pos.side <;> rw [hc] at e <;> simp [lastRank] at e <;> omega
  simp only [Board.pushPlies, List.mem_flatMap, mem_squares, mem_and, Bool.and_eq_true,
    List.mem_map, h.side, h.consistent.mem_pos, mem_not, Bool.not_eq_true', ← Bool.not_eq_true]
  constructor
  · rintro ⟨src, ⟨hs, hr⟩, dst, hd, rfl⟩
    rw [mem_pawnNoncaptures h.consistent _ (hrank src hs)] at hd
    have hnone : pos.man dst = none := by
      rcases mem_pushes.mp hd with ⟨_, hn⟩ | ⟨_, _, hn, _⟩ <;> exact hn
    rw [← targets_push] at hd
    exact ⟨src, dst, rfl, ⟨hs, hnone, hd⟩, fun e => hr ((promotionRank_iff hd).mpr e.2),
      fun e => e.2.1 rfl⟩
  · rintro ⟨src, dst, rfl, ⟨hs, hm, ht⟩, hl, _⟩
    refine ⟨src, ⟨hs, fun e => hl ⟨rfl, (promotionRank_iff ht).mp e⟩⟩, dst, ?_, rfl⟩
    rw [mem_pawnNoncaptures h.consistent _ (hrank src hs)]
    rwa [Option.isSome_none, targets_push] at ht

theorem Sim.mem_pieceCaptures (h : Sim b pos) (ply : Ply) :
    ply ∈ Board.pieces.flatMap (b.piecePlies (b.getPieces b.side.xside) b.pieceAt) ↔
      ∃ src dst p q, p ≠ .pawn ∧ ply = .move src dst p (some q) ∧
        pos.Carries src dst p (some q) := by
  simp only [List.mem_flatMap, Board.piecePlies, h.mem_movers, List.mem_map, mem_squares, mem_and,
    Bool.and_eq_true, h.side, mem_pieces]
  constructor
  · rintro ⟨p, hp, src, hs, dst, ⟨hd, ht⟩, rfl⟩
    obtain ⟨q, hq, hm⟩ := pieceAt_of_mem h.consistent ht
    refine ⟨src, dst, p, q, hp, by rw [hq], hs, hm, ?_⟩
    rw [targets_piece hp]
    exact (mem_attacksOf h.consistent hp _ _ _).mp hd
  · rintro ⟨src, dst, p, q, hp, rfl, hs, hm, ht⟩
    rw [targets_piece hp] at ht
    refine ⟨p, hp, src, hs, dst, ⟨(mem_attacksOf h.consistent hp _ _ _).mpr ht, ?_⟩, ?_⟩
    · exact (h.consistent.mem_all _ _).mpr ⟨q, hm⟩
    · rw [h.consistent.pieceAt_eq, hm]
      rfl

theorem Sim.mem_pieceMoves (h : Sim b pos) (ply : Ply) :
    ply ∈ Board.pieces.flatMap (b.piecePlies (~~~b.occupied) (fun _ => none)) ↔
      ∃ src dst p, p ≠ .pawn ∧ ply = .move src dst p none ∧ pos.Carries src dst p none := by
  simp only [List.mem_flatMap, Board.piecePlies, h.mem_movers, List.mem_map, mem_squares, mem_and,
    Bool.and_eq_true, h.side, mem_pieces, mem_not, h.consistent.occ_eq]
  constructor
  · rintro ⟨p, hp, src, hs, dst, ⟨hd, ht⟩, rfl⟩
    refine ⟨src, dst, p, hp, rfl, hs, by simpa using ht, ?_⟩
    rw [targets_piece hp]
    exact (mem_attacksOf h.consistent hp _ _ _).mp hd
  · rintro ⟨src, dst, p, hp, rfl, hs, hm, ht⟩
    rw [targets_piece hp] at ht
    exact ⟨p, hp, src, hs, dst, ⟨(mem_attacksOf h.consistent hp _ _ _).mpr ht, by
      have hm' : pos.man dst = none := hm
      simp [hm']⟩, rfl⟩

theorem Sim.mem_castlePlies (h : Sim b pos) (hv : Valid pos) (ply : Ply) :
    ply ∈ b.castlePlies ↔ ∃ f, ply = .castle f ∧ pos.Listed (.castle f) := by
  have hchk := h.inCheck (hv.king_exists _)
  have hone : ∀ f, ply ∈ (if b.mayCastle f then [Ply.castle f] else []) ↔
      ply = .castle f ∧ b.mayCastle f = true := by
    intro f
    split <;> simp [*]
  unfold Board.castlePlies
  simp only [List.flatMap_cons, List.flatMap_nil, List.append_nil, h.side]
  by_cases hc : b.inCheck = true
  · have hc' := hchk.mp hc
    simp only [hc, if_true, List.not_mem_nil, false_iff]
    rintro ⟨f, _, _, _, _, hn, _⟩
    exact hn hc'
  · have hc' : ¬ pos.InCheck := fun e => hc (hchk.mpr e)
    have hf : ∀ f, pos.Listed (.castle f) ↔ f.color = pos.side ∧ b.mayCastle f = true := by
      intro f
      rw [h.mayCastle f]
      simp only [Position.Listed, hc', not_false_eq_true, true_and]
    simp only [hc, Bool.false_eq_true, if_false, hf]
    cases hside : pos.side with
    | white =>
      simp only [if_true, List.mem_append, hone]
      constructor
      · rintro (⟨rfl, hm⟩ | ⟨rfl, hm⟩)
        · exact ⟨.wk, rfl, rfl, hm⟩
        · exact ⟨.wq, rfl, rfl, hm⟩
      · rintro ⟨f, rfl, hcol, hm⟩
        cases f
        · exact Or.inl ⟨rfl, hm⟩
        · exact Or.inr ⟨rfl, hm⟩
        · cases hcol
        · cases hcol
    | black =>
      simp only [reduceCtorEq, if_false, List.mem_append, hone]
      constructor
      · rintro (⟨rfl, hm⟩ | ⟨rfl, hm⟩)
        · exact ⟨.bk, rfl, rfl, hm⟩
        · exact ⟨.bq, rfl, rfl, hm⟩
      · rintro ⟨f, rfl, hcol, hm⟩
        cases f
        · cases hcol
        · cases hcol
        · exact Or.inl ⟨rfl, hm⟩
        · exact Or.inr ⟨rfl, hm⟩

/-- **`generate_captures` lists the captures, promotions and en passant captures.** -/
theorem Sim.mem_capturePlies (h : Sim b pos) (hv : Valid pos) (allpromo : Bool) (ply : Ply) :
    ply ∈ b.capturePlies allpromo ↔
      pos.Listed ply ∧ ply.isTactical = true ∧ ply.Chosen allpromo := by
  rw [Board.capturePlies, List.mem_append, List.mem_append, h.mem_promotionPlies hv,
    h.mem_pawnCapturePlies, h.mem_pieceCaptures]
  constructor
  · rintro ((⟨src, dst, p, cap, rfl, hc, hl, hp⟩ | ⟨src, dst, rfl, hl⟩ | ⟨src, dst, q, rfl, hl⟩) |
      ⟨src, dst, p, q, hp, rfl, hc⟩)
    · exact ⟨⟨hc, hl, mem_promotionChoice hp⟩, by simp [Ply.isTactical, Ply.isPromote], hp⟩
    · exact ⟨hl, rfl, trivial⟩
    · exact ⟨hl, rfl, trivial⟩
    · exact ⟨⟨hc, fun e => hp e.1, fun e => hp e.1⟩, rfl, trivial⟩
  · rintro ⟨hl, ht, hch⟩
    cases ply with
    | move src dst p cap =>
      cases cap with
      | none => cases ht
      | some q =>
        by_cases hp : p = .pawn
        · subst hp
          exact Or.inl (Or.inr (Or.inr ⟨src, dst, q, rfl, hl⟩))
        · exact Or.inr ⟨src, dst, p, q, hp, rfl, hl.1⟩
    | promote src dst p cap => exact Or.inl (Or.inl ⟨src, dst, p, cap, rfl, hl.1, hl.2.1, hch⟩)
    | enpassant src dst => exact Or.inl (Or.inr (Or.inl ⟨src, dst, rfl, hl⟩))
    | castle f => cases ht

/-- **`generate_noncaptures` lists all the others.** -/
theorem Sim.mem_noncapturePlies (h : Sim b pos) (hv : Valid pos) (ply : Ply) :
    ply ∈ b.noncapturePlies ↔ pos.Listed ply ∧ ply.isTactical = false := by
  rw [Board.noncapturePlies, List.mem_append, List.mem_append, h.mem_castlePlies hv,
    h.mem_pushPlies hv, h.mem_pieceMoves]
  constructor
  · rintro ((⟨f, rfl, hl⟩ | ⟨src, dst, rfl, hl⟩) | ⟨src, dst, p, hp, rfl, hc⟩)
    · exact ⟨hl, rfl⟩
    · exact ⟨hl, rfl⟩
    · exact ⟨⟨hc, fun e => hp e.1, fun e => hp e.1⟩, rfl⟩
  · rintro ⟨hl, ht⟩
    cases ply with
    | move src dst p cap =>
      cases cap with
      | some q => cases ht
      | none =>
        by_cases hp : p = .pawn
        · subst hp
          exact Or.inl (Or.inr ⟨src, dst, rfl, hl⟩)
        · exact Or.inr ⟨src, dst, p, hp, rfl, hl.1⟩
    | promote src dst p cap => simp [Ply.isTactical, Ply.isPromote] at ht
    | enpassant src dst => cases ht
    | castle f => exact Or.inl (Or.inl ⟨f, rfl, hl⟩)

theorem Sim.mem_plies (h : Sim b pos) (hv : Valid pos) (allpromo : Bool) (ply : Ply) :
    ply ∈ b.plies allpromo ↔ pos.Listed ply ∧ ply.Chosen allpromo := by
  rw [Board.plies, List.mem_append, h.mem_capturePlies hv, h.mem_noncapturePlies hv]
  constructor
  · rintro (⟨h1, _, h3⟩ | ⟨h1, h2⟩)
    · exact ⟨h1, h3⟩
    · refine ⟨h1, ?_⟩
      cases ply <;> first | trivial | simp [Ply.isTactical, Ply.isPromote] at h2
  · rintro ⟨h1, h2⟩
    cases ht : ply.isTactical with
    | true => exact Or.inl ⟨h1, rfl, h2⟩
    | false => exact Or.inr ⟨h1, rfl⟩

end Members

/-! ## No ply is listed twice -/

/-- A concatenation has no duplicates if every element tells which part it is from. -/
theorem nodup_flatMap_of_key {α β γ : Type} {l : List α} {f : α → List β} {k : β → γ} {g : α → γ}
    (hl : (l.map g).Nodup) (hf : ∀ a ∈ l, (f a).Nodup) (hk : ∀ a ∈ l, ∀ x ∈ f a, k x = g a) :
    (l.flatMap f).Nodup := by
  induction l with
  | nil => simp
  | cons a l ih =>
    rw [List.map_cons, List.nodup_cons] at hl
    rw [List.flatMap_cons, List.nodup_append]
    refine ⟨hf a List.mem_cons_self, ih hl.2 (fun b hb => hf b (List.mem_cons_of_mem _ hb))
      (fun b hb => hk b (List.mem_cons_of_mem _ hb)), ?_⟩
    rintro x hx y hy rfl
    obtain ⟨b, hb, hxb⟩ := List.mem_flatMap.mp hy
    apply hl.1
    rw [← hk a List.mem_cons_self x hx, hk b (List.mem_cons_of_mem _ hb) x hxb]
    exact List.mem_map_of_mem hb

theorem promotionChoice_nodup (allpromo : Bool) : (Board.promotionChoice allpromo).Nodup := by
  cases allpromo <;> decide

theorem castlePlies_nodup (b : Board) : b.castlePlies.Nodup := by
  have key : ∀ f g : CastleFlag, f ≠ g →
      ([f, g].flatMap (fun f => if b.mayCastle f then [Ply.castle f] else [])).Nodup := by
    intro f g h
    simp only [List.flatMap_cons, List.flatMap_nil, List.append_nil]
    split <;> split <;> simp [h]
  unfold Board.castlePlies
  split
  · exact List.nodup_nil
  · split
    · exact key _ _ (by decide)
    · exact key _ _ (by decide)

theorem mem_castlePlies_shape {b : Board} {ply : Ply} (h : ply ∈ b.castlePlies) : ply.isCastling = true := by
  have key : ∀ l : List CastleFlag,
      ply ∈ l.flatMap (fun f => if b.mayCastle f then [Ply.castle f] else []) →
      ply.isCastling = true := by
    intro l hl
    obtain ⟨f, _, h⟩ := List.mem_flatMap.mp hl
    split at h
    · rw [List.mem_singleton.mp h]; rfl
    · cases h
  unfold Board.castlePlies at h
  split at h
  · cases h
  · split at h
    · exact key _ h
    · exact key _ h

theorem encode_nodup {l : List Ply} (h : l.Nodup) : (l.map Ply.encode).Nodup :=
  h.map (fun _ _ e => Ply.encode_injective e)

section Nodup

variable [Build] (b : Board)

theorem movers_nodup (p : Piece) : (b.movers p).Nodup := by
  unfold Board.movers
  split
  · cases b.getKing b.side <;> simp
  · exact squares_nodup _

/-- The plies of all pieces to all their targets. -/
theorem targetPlies_nodup {srcs : List Square} {dsts : Square → Bitboard}
    {f : Square → Square → Ply} (hs : srcs.Nodup)
    (hsrc : ∀ s t, (f s t).src = s) (hdst : ∀ s t, (f s t).dst = t) :
    (srcs.flatMap (fun s => (squares (dsts s)).map (f s))).Nodup := by
  apply nodup_flatMap_of_key (k := Ply.src) (g := id)
  · simpa using hs
  · intro s _
    apply List.Nodup.map
    · intro t t' e
      rw [← hdst s t, ← hdst s t', e]
    · exact squares_nodup _
  · intro s _ x hx
    obtain ⟨t, _, rfl⟩ := List.mem_map.mp hx
    exact hsrc s t

theorem piecePlies_nodup (mask : Bitboard) (cap : Square → Option Piece) (p : Piece) :
    (b.piecePlies mask cap p).Nodup := by
  unfold Board.piecePlies
  exact targetPlies_nodup (f := fun s t => .move s t p (cap t)) (movers_nodup b p)
    (fun _ _ => rfl) (fun _ _ => rfl)

theorem pieces_piecePlies_nodup (mask : Bitboard) (cap : Square → Option Piece) :
    (Board.pieces.flatMap (b.piecePlies mask cap)).Nodup := by
  apply nodup_flatMap_of_key (k := Ply.piece) (g := id)
  · decide
  · exact fun p _ => piecePlies_nodup b mask cap p
  · intro p _ x hx
    obtain ⟨src, _, hx⟩ := List.mem_flatMap.mp hx
    obtain ⟨dst, _, rfl⟩ := List.mem_map.mp hx
    rfl

theorem mem_pieces_piecePlies {mask : Bitboard} {cap : Square → Option Piece} {ply : Ply}
    (h : ply ∈ Board.pieces.flatMap (b.piecePlies mask cap)) :
    ∃ src dst p, p ≠ .pawn ∧ ply = .move src dst p (cap dst) := by
  obtain ⟨p, hp, h⟩ := List.mem_flatMap.mp h
  obtain ⟨src, _, h⟩ := List.mem_flatMap.mp h
  obtain ⟨dst, _, rfl⟩ := List.mem_map.mp h
  exact ⟨src, dst, p, mem_pieces.mp hp, rfl⟩

theorem pawnCapturePlies_nodup : b.pawnCapturePlies.Nodup := by
  unfold Board.pawnCapturePlies
  apply targetPlies_nodup (f := fun s t =>
    if some t = b.epsq then .enpassant s t else .move s t .pawn (b.pieceAt t))
  · exact squares_nodup _
  · intro s t; split <;> rfl
  · intro s t; split <;> rfl

theorem mem_pawnCapturePlies_shape {ply : Ply} (h : ply ∈ b.pawnCapturePlies) :
    ply.piece = .pawn ∧ ply.isPromote = false := by
  obtain ⟨src, _, h⟩ := List.mem_flatMap.mp h
  obtain ⟨dst, _, rfl⟩ := List.mem_map.mp h
  split <;> exact ⟨rfl, rfl⟩

theorem pushPlies_nodup : b.pushPlies.Nodup := by
  unfold Board.pushPlies
  exact targetPlies_nodup (f := fun s t => .move s t .pawn none) (squares_nodup _)
    (fun _ _ => rfl) (fun _ _ => rfl)

theorem mem_pushPlies_shape {ply : Ply} (h : ply ∈ b.pushPlies) :
    ply.piece = .pawn ∧ ply.isCastling = false := by
  obtain ⟨src, _, h⟩ := List.mem_flatMap.mp h
  obtain ⟨dst, _, rfl⟩ := List.mem_map.mp h
  exact ⟨rfl, rfl⟩

end Nodup

section Boards

variable [k : Build] {b : Board} {pos : Position}

/-- A promotion with a captured piece on its word comes from the first inner loop. -/
theorem Sim.promotionPlies_nodup (h : Sim b pos) (allpromo : Bool) :
    (b.promotionPlies allpromo).Nodup := by
  have hinner : ∀ src (bb : Bitboard) (cap : Square → Option Piece),
      ((squares bb).flatMap (fun dst => (Board.promotionChoice allpromo).map
        (fun p => Ply.promote src dst p (cap dst)))).Nodup := by
    intro src bb cap
    apply nodup_flatMap_of_key (k := Ply.dst) (g := id)
    · simpa using squares_nodup bb
    · intro dst _
      apply List.Nodup.map
      · intro p q e
        cases e
        rfl
      · exact promotionChoice_nodup allpromo
    · intro dst _ x hx
      obtain ⟨p, _, rfl⟩ := List.mem_map.mp hx
      rfl
  unfold Board.promotionPlies
  apply nodup_flatMap_of_key (k := Ply.src) (g := id)
  · simpa using squares_nodup (b.pos b.side .pawn &&& Board.promotionRank b.side)
  · intro src _
    rw [List.nodup_append]
    refine ⟨hinner src _ b.pieceAt, hinner src _ (fun _ => none), ?_⟩
    rintro x hx y hy rfl
    obtain ⟨dst, hd, hx⟩ := List.mem_flatMap.mp hx
    obtain ⟨p, _, rfl⟩ := List.mem_map.mp hx
    obtain ⟨dst', _, hy⟩ := List.mem_flatMap.mp hy
    obtain ⟨p', _, e⟩ := List.mem_map.mp hy
    rw [mem_squares, mem_and, Bool.and_eq_true] at hd
    obtain ⟨q, hq, _⟩ := pieceAt_of_mem h.consistent hd.2
    have := congrArg Ply.captured e
    simp only [Ply.captured] at this
    rw [hq] at this
    cases this
  · intro src _ x hx
    rcases List.mem_append.mp hx with hx | hx <;>
    · obtain ⟨dst, _, hx⟩ := List.mem_flatMap.mp hx
      obtain ⟨p, _, rfl⟩ := List.mem_map.mp hx
      rfl

theorem mem_promotionPlies_shape {allpromo : Bool} {ply : Ply}
    (h : ply ∈ b.promotionPlies allpromo) : ply.isPromote = true := by
  obtain ⟨src, _, h⟩ := List.mem_flatMap.mp h
  rcases List.mem_append.mp h with h | h <;>
  · obtain ⟨dst, _, h⟩ := List.mem_flatMap.mp h
    obtain ⟨p, _, rfl⟩ := List.mem_map.mp h
    rfl

theorem Sim.capturePlies_nodup (h : Sim b pos) (allpromo : Bool) :
    (b.capturePlies allpromo).Nodup := by
  rw [Board.capturePlies, List.nodup_append, List.nodup_append]
  refine ⟨⟨h.promotionPlies_nodup allpromo, pawnCapturePlies_nodup b, ?_⟩,
    pieces_piecePlies_nodup b _ _, ?_⟩
  · rintro x hx y hy rfl
    have h1 := mem_promotionPlies_shape hx
    rw [(mem_pawnCapturePlies_shape b hy).2] at h1
    cases h1
  · rintro x hx y hy rfl
    obtain ⟨src, dst, p, hp, rfl⟩ := mem_pieces_piecePlies b hy
    rcases List.mem_append.mp hx with hx | hx
    · cases mem_promotionPlies_shape hx
    · exact hp (mem_pawnCapturePlies_shape b hx).1

theorem noncapturePlies_nodup (b : Board) : b.noncapturePlies.Nodup := by
  rw [Board.noncapturePlies, List.nodup_append, List.nodup_append]
  refine ⟨⟨castlePlies_nodup b, pushPlies_nodup b, ?_⟩, pieces_piecePlies_nodup b _ _, ?_⟩
  · rintro x hx y hy rfl
    have h1 := mem_castlePlies_shape hx
    rw [(mem_pushPlies_shape b hy).2] at h1
    cases h1
  · rintro x hx y hy rfl
    obtain ⟨src, dst, p, hp, rfl⟩ := mem_pieces_piecePlies b hy
    rcases List.mem_append.mp hx with hx | hx
    · cases mem_castlePlies_shape hx
    · exact hp (mem_pushPlies_shape b hx).1

/-- **No ply is listed twice.** -/
theorem Sim.plies_nodup (h : Sim b pos) (hv : Valid pos) (allpromo : Bool) :
    (b.plies allpromo).Nodup := by
  rw [Board.plies, List.nodup_append]
  refine ⟨h.capturePlies_nodup allpromo, noncapturePlies_nodup b, ?_⟩
  rintro x hx y hy rfl
  have h1 := ((h.mem_capturePlies hv allpromo x).mp hx).2.1
  rw [((h.mem_noncapturePlies hv x).mp hy).2] at h1
  cases h1

end Boards

end HoiChess.Chess
