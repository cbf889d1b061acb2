import HoiChess.Chess.Attack
import HoiChess.Chess.Encode

/-!
# Making a move carries out the rules

`Sim b pos` relates a board to the position it represents.  `Sim.makeMove`
shows that `make_move`, applied to the word of a pseudo-legal move, leads to
the board of the position after the move: the piece operations find the
board as they assert (`opsOkAt_ops`), the castling flags that are cleared are
the rights that are lost (`clearCastling_rights`) and the en passant square
is the square a pawn passed (`updateEpsq_passed`).
-/

namespace HoiChess.Chess

open WordSet Grid Rules

/-- The board `b` represents the position `pos`. -/
structure Sim [Build] (b : Board) (pos : Position) : Prop where
  consistent : Consistent b pos.man
  side : b.side = pos.side
  rights : ∀ f, b.hasFlag f = pos.right f
  ep : b.epsq = pos.ep
  king : ∀ c k, pos.man k = some (c, .king) → b.getKing c = some k

/-- The man on a square, as the bitboards have it. -/
def Board.manAt (b : Board) (sq : Square) : Option Man :=
  match b.colorAt sq, b.pieceAt sq with
  | some c, some p => some (c, p)
  | _, _ => none

/-- The position a board stands for. -/
def Board.abs (b : Board) : Position where
  man := b.manAt
  side := b.side
  right := b.hasFlag
  ep := b.epsq

theorem Consistent.manAt_eq [Build] {b : Board} {man : Placement} (h : Consistent b man) :
    b.manAt = man := by
  funext sq
  rw [Board.manAt, h.colorAt_eq, h.pieceAt_eq]
  cases man sq <;> rfl

theorem Sim.abs_eq [Build] {b : Board} {pos : Position} (h : Sim b pos) : b.abs = pos := by
  obtain ⟨man, side, right, ep⟩ := pos
  have h1 : b.manAt = man := h.consistent.manAt_eq
  have h2 : b.hasFlag = right := funext h.rights
  have h3 : b.side = side := h.side
  have h4 : b.epsq = ep := h.ep
  rw [Board.abs, h1, h2, h3, h4]

namespace Rules.Ply

/-- The piece operations of a move, for the side and the en passant pawn given. -/
def ops (c : Color) (eppawn : Option Square) : Ply → List PieceOp
  | move src dst p none => [.move src dst c p]
  | move src dst p (some q) => [.remove dst c.xside q, .move src dst c p]
  | promote src dst p none => [.remove src c .pawn, .place dst c p]
  | promote src dst p (some q) => [.remove src c .pawn, .remove dst c.xside q, .place dst c p]
  | enpassant src dst =>
    .move src dst c .pawn :: (eppawn.map (fun sq => .remove sq c.xside .pawn)).toList
  | castle f => [.move f.kingHome f.kingDest c .king, .move f.rookHome f.transit c .rook]

end Rules.Ply

theorem castleRookOp_kingDest (c : Color) (f : CastleFlag) :
    Board.castleRookOp c f.kingDest = [.move f.rookHome f.transit c .rook] := by
  cases f <;> rfl

/-- **The branches of `make_move` for an encoded move.** -/
theorem moveOps_encode (b : Board) (ply : Ply) :
    b.moveOps ply.encode = ply.ops b.side b.getEppawn := by
  unfold Board.moveOps
  simp only [Ply.isCapture_encode, Ply.isPromotion_encode, Ply.isNormal_encode,
    Ply.isCastle_encode, Ply.isEnpassant_encode, Ply.fromSq_encode, Ply.toSq_encode,
    Ply.capPtype_encode, Ply.promoteTo_encode, Ply.ptype_encode]
  cases ply with
  | move src dst p cap => cases cap <;> rfl
  | promote src dst p cap => cases cap <;> rfl
  | enpassant src dst => rfl
  | castle f =>
    simp [Ply.captured, Ply.isEp, Ply.isCastling, Ply.src, Ply.dst, castleRookOp_kingDest, Ply.ops]

theorem cornerFlag_eq_some {sq : Square} {f : CastleFlag} :
    Board.cornerFlag sq = some f ↔ sq = f.rookHome := by
  revert sq
  cases f <;> decide

/-! ## The pieces -/

/-- `get_eppawn` is one step behind the en passant square, as the side to move sees it. -/
theorem getEppawn_eq {b : Board} {pos : Position} (hb : b.epsq = pos.ep) {e : Square} (he : pos.ep = some e)
    (hr : rnk e = epRank pos.side) {v : Square} (hv : Along e (forward pos.side.xside) 1 v) :
    b.getEppawn = some v := by
  have ha := along_forward hv
  have hval : ∀ w : Square, fil w = fil v → rnk w = rnk v → w = v := fun w => square_ext
  rw [Board.getEppawn, hb, he]
  simp only
  have hf := fil_lt e
  have h8 : ∀ w : Square, w.val = e.val + 8 → fil w = fil e ∧ rnk w = rnk e + 1 := by
    intro w hw; unfold fil rnk; omega
  have h8' : ∀ w : Square, w.val + 8 = e.val → fil w = fil e ∧ rnk w + 1 = rnk e := by
    intro w hw; unfold fil rnk; omega
  have hev := square_val e
  cases hc : pos.side with
  | white =>
    rw [hc] at hr ha
    simp only [epRank, Color.xside, Ahead] at hr ha
    have hne : ¬ rnk e = rank3 := by rw [hr]; decide
    rw [if_neg hne, if_pos hr]
    have hsub : (e - 8).val + 8 = e.val := by
      rw [Fin.sub_def]
      simp only [Fin.isValue]
      have : rank6 = 5 := rfl
      change (64 - 8 + e.val) % 64 + 8 = e.val
      omega
    obtain ⟨h1, h2⟩ := h8' _ hsub
    exact congrArg some (hval _ (by omega) (by omega))
  | black =>
    rw [hc] at hr ha
    simp only [epRank, Color.xside, Ahead] at hr ha
    rw [if_pos hr]
    have hadd : (e + 8).val = e.val + 8 := by
      rw [Fin.add_def]
      have : rank3 = 2 := rfl
      change (e.val + 8) % 64 = e.val + 8
      omega
    obtain ⟨h1, h2⟩ := h8 _ hadd
    exact congrArg some (hval _ (by omega) (by omega))

theorem captured_ne_king {pos : Position} (hs : Sane pos) {ply : Ply} (hp : pos.Pseudo ply) :
    ply.captured ≠ some .king := by
  intro hc
  cases ply with
  | move src dst p cap => cases hc; exact hp.1.cap_ne_king hs.safe rfl
  | promote src dst p cap => cases hc; exact hp.1.cap_ne_king hs.safe rfl
  | enpassant src dst => cases hc
  | castle f => cases hc

/-- The fields that the piece operations leave alone. -/
structure SameState (b b' : Board) : Prop where
  side : b'.side = b.side
  flags : b'.flags = b.flags
  epsq : b'.epsq = b.epsq

theorem sameState_setCastled (b : Board) (mov : Move) :
    SameState b (b.setCastled mov) ∧ (b.setCastled mov).king = b.king := by
  unfold Board.setCastled
  split <;> exact ⟨⟨rfl, rfl, rfl⟩, rfl⟩

theorem square_sub_eight {sq : Square} (h : 8 ≤ sq.val) : (sq - 8).val = sq.val - 8 := by
  rw [Fin.sub_def]
  change (64 - 8 + sq.val) % 64 = sq.val - 8
  omega

theorem square_add_eight {sq : Square} (h : sq.val + 8 < 64) : (sq + 8).val = sq.val + 8 := by
  rw [Fin.add_def]
  change (sq.val + 8) % 64 = sq.val + 8
  omega

/-- The distance of a pawn's squares says whether it made a double step. -/
theorem pawn_distance {man : Placement} {c : Color} {src dst : Square} {cap : Option Piece}
    (h : dst ∈ targets man c .pawn cap.isSome src) :
    (if (dst.val : Int) - src.val = 16 then some (dst - 8)
      else if (dst.val : Int) - src.val = -16 then some (dst + 8) else none) =
      (Ply.move src dst .pawn cap).passed := by
  have hsv := square_val src
  have hdv := square_val dst
  have hsf := fil_lt src
  have hdf := fil_lt dst
  have hd := dst.isLt
  cases cap with
  | some q =>
    rw [Option.isSome_some, targets_capture] at h
    have := (pawn_reach_coords h).1
    rw [if_neg (by omega), if_neg (by omega)]
    rfl
  | none =>
    rw [Option.isSome_none, targets_push] at h
    simp only [Ply.passed]
    rcases mem_pushes.mp h with ⟨ha, _⟩ | ⟨_, ha, _⟩
    · obtain ⟨hf, hc⟩ := along_forward ha
      have hone : rnk dst = rnk src + 1 ∨ rnk dst + 1 = rnk src := by
        cases c
        · exact Or.inl hc
        · exact Or.inr hc
      rw [if_neg (by omega), if_neg (by omega), if_neg (by omega)]
    · obtain ⟨hf, hc⟩ := along_forward ha
      cases c
      · simp only [Ahead] at hc
        rw [if_pos (by omega), if_pos (by omega)]
        refine congrArg some (Fin.ext ?_)
        rw [square_sub_eight (by omega)]
        simp only [mkSquare]
        omega
      · simp only [Ahead] at hc
        rw [if_neg (by omega), if_pos (by omega), if_pos (by omega)]
        refine congrArg some (Fin.ext ?_)
        rw [square_add_eight (by omega)]
        simp only [mkSquare]
        omega

/-- A pawn does not reach the last rank by a double step. -/
theorem promote_not_double {pos : Position} {src dst : Square} {cap : Option Piece}
    (h : pos.Carries src dst .pawn cap) (hl : rnk dst = lastRank pos.side) :
    (Ply.move src dst .pawn cap).passed = none := by
  cases cap with
  | some q => rfl
  | none =>
    have ht := h.2.2
    rw [Option.isSome_none, targets_push] at ht
    simp only [Ply.passed]
    rcases mem_pushes.mp ht with ⟨ha, _⟩ | ⟨hr, ha, _⟩
    · have hc := (along_forward ha).2
      unfold Ahead at hc
      cases hside : pos.side <;> rw [hside] at hc <;> simp only at hc <;> rw [if_neg (by omega)]
    · have hc := (along_forward ha).2
      unfold Ahead at hc
      cases hside : pos.side <;> rw [hside] at hc hl hr <;>
        simp only [lastRank, pawnRank, rank1, rank2, rank7, rank8] at hc hl hr <;> omega

/-- The operations of a move find the board as they assert, wherever the move leads. -/
theorem opsOkAt_move {pos : Position} {src dst : Square} {p : Piece} {cap : Option Piece}
    (hc : pos.Carries src dst p cap) (ep : Option Square) :
    OpsOkAt pos.man (Ply.ops pos.side ep (.move src dst p cap)) := by
  have hne := ne_of_mem_targets hc.2.2
  obtain ⟨h1, h2, _⟩ := hc
  cases cap with
  | none => exact ⟨⟨h1, h2⟩, trivial⟩
  | some q =>
    refine ⟨h2, ⟨?_, ?_⟩, trivial⟩
    · simp only [PieceOp.apply]
      rw [Function.update_of_ne hne, h1]
    · simp [PieceOp.apply]

theorem opsOkAt_promote {pos : Position} {src dst : Square} {cap : Option Piece}
    (hc : pos.Carries src dst .pawn cap) (p : Piece) (ep : Option Square) :
    OpsOkAt pos.man (Ply.ops pos.side ep (.promote src dst p cap)) := by
  have hne := ne_of_mem_targets hc.2.2
  obtain ⟨h1, h2, _⟩ := hc
  cases cap with
  | none =>
    refine ⟨h1, ?_, trivial⟩
    simp only [PieceOp.OkAt, PieceOp.apply]
    rw [Function.update_of_ne hne.symm, h2]
    rfl
  | some q =>
    refine ⟨h1, ?_, ?_, trivial⟩
    · simp only [PieceOp.OkAt, PieceOp.apply]
      rw [Function.update_of_ne hne.symm, h2]
      rfl
    · simp [PieceOp.OkAt, PieceOp.apply]

theorem foldl_ops_move {pos : Position} {src dst : Square} {p : Piece} {cap : Option Piece}
    (hc : pos.Carries src dst p cap) (ep : Option Square) :
    (Ply.ops pos.side ep (.move src dst p cap)).foldl PieceOp.apply pos.man =
      pos.placement (.move src dst p cap) := by
  have hne := ne_of_mem_targets hc.2.2
  cases cap with
  | none => rfl
  | some q =>
    simp only [Ply.ops, List.foldl_cons, List.foldl_nil, PieceOp.apply, Position.placement]
    rw [Function.update_comm hne.symm, Function.update_idem]

theorem foldl_ops_promote (pos : Position) (src dst : Square) (p : Piece) (cap : Option Piece)
    (ep : Option Square) :
    (Ply.ops pos.side ep (.promote src dst p cap)).foldl PieceOp.apply pos.man =
      pos.placement (.promote src dst p cap) := by
  cases cap with
  | none => rfl
  | some q =>
    simp only [Ply.ops, List.foldl_cons, List.foldl_nil, PieceOp.apply, Position.placement]
    rw [Function.update_idem]

variable [k : Build] {b : Board} {pos : Position}

/-- The board's en passant pawn is the victim of an en passant capture. -/
theorem Sim.getEppawn (h : Sim b pos) (hs : Sane pos) {src dst : Square}
    (he : pos.ep = some dst) (hr : dst ∈ reach pos.man pos.side .pawn src) :
    b.getEppawn = some (epVictim src dst) :=
  getEppawn_eq h.ep he (hs.ep dst he).rank (epVictim_along hr)

/-- **The operations of a pseudo-legal move find the board as they assert.** -/
theorem opsOkAt_ops (h : Sim b pos) (hs : Sane pos) {ply : Ply} (hp : pos.Pseudo ply) :
    OpsOkAt pos.man (ply.ops pos.side b.getEppawn) := by
  cases ply with
  | move src dst p cap => exact opsOkAt_move hp.1 _
  | promote src dst p cap => exact opsOkAt_promote hp.1 p _
  | enpassant src dst =>
    obtain ⟨h1, h2, h3⟩ := hp
    have hv := hs.victim h2 h3
    have he := (hs.ep dst h2).empty
    rw [h.getEppawn hs h2 h3]
    refine ⟨⟨h1, he⟩, ?_, trivial⟩
    have hvd : epVictim src dst ≠ dst := by rintro e; rw [e, he] at hv; cases hv
    have hvs : epVictim src dst ≠ src := by
      rintro e
      rw [e, h1] at hv
      exact ne_xside pos.side (congrArg Prod.fst (Option.some.inj hv))
    simp only [PieceOp.OkAt, PieceOp.apply]
    rw [Function.update_of_ne hvd, Function.update_of_ne hvs, hv]
  | castle f =>
    obtain ⟨_, _, h1, h2, h3, _⟩ := hp
    have hd : f.kingDest ≠ f.rookHome ∧ f.kingHome ≠ f.rookHome ∧ f.kingDest ≠ f.transit ∧
        f.kingHome ≠ f.transit := by cases f <;> decide
    obtain ⟨d1, d2, d3, d4⟩ := hd
    refine ⟨⟨h1, h3 _ (between_kingDest f)⟩, ⟨?_, ?_⟩, trivial⟩
    · simp only [PieceOp.apply]
      rw [Function.update_of_ne d1.symm, Function.update_of_ne d2.symm, h2]
    · simp only [PieceOp.apply]
      rw [Function.update_of_ne d3.symm, Function.update_of_ne d4.symm, h3 _ (between_transit f)]

/-- The operations lead to the placement of the rules. -/
theorem foldl_ops (h : Sim b pos) (hs : Sane pos) {ply : Ply} (hp : pos.Pseudo ply) :
    (ply.ops pos.side b.getEppawn).foldl PieceOp.apply pos.man = pos.placement ply := by
  cases ply with
  | move src dst p cap => exact foldl_ops_move hp.1 _
  | promote src dst p cap => exact foldl_ops_promote pos src dst p cap _
  | enpassant src dst =>
    rw [h.getEppawn hs hp.2.1 hp.2.2]
    rfl
  | castle f => rfl

/-! ## The state besides the pieces -/

theorem sameState_runOps (b : Board) (ops : List PieceOp) : SameState b (b.runOps ops) := by
  induction ops generalizing b with
  | nil => exact ⟨rfl, rfl, rfl⟩
  | cons op ops ih =>
    have h := ih (op.exec b)
    have hop : SameState b (op.exec b) := by cases op <;> exact ⟨rfl, rfl, rfl⟩
    exact ⟨h.side.trans hop.side, h.flags.trans hop.flags, h.epsq.trans hop.epsq⟩

theorem Consistent.withCounters {man : Placement} (h : Consistent b man) (mn mc : Int)
    (pc : Vector (BitVec 32) 64) :
    Consistent { b with moveno := mn, movecnt50 := mc, pceMovecnt := pc } man :=
  ⟨h.pos, h.all, h.rot, h.king, h.material, h.hash, h.pawnhash⟩

theorem Consistent.updateCounters {man : Placement} (h : Consistent b man) (mov : Move) :
    Consistent (b.updateCounters mov) man :=
  h.switchSides.withCounters _ _ _

theorem Consistent.setCastled {man : Placement} (h : Consistent b man) (mov : Move) :
    Consistent (b.setCastled mov) man := by
  unfold Board.setCastled
  split
  · exact ⟨h.pos, h.all, h.rot, h.king, h.material, h.hash, h.pawnhash⟩
  · exact h

theorem Consistent.clearCorner {man : Placement} (h : Consistent b man) (sq : Square) :
    Consistent (b.clearCorner sq) man := by
  unfold Board.clearCorner
  split
  · exact h
  · exact h.clearFlag _

theorem Consistent.clearCastling {man : Placement} (h : Consistent b man) (mov : Move) :
    Consistent (b.clearCastling mov) man := by
  have h1 : Consistent (if mov.ptype = some .king then
      if b.side = .white then (b.clearFlag .wk).clearFlag .wq
      else (b.clearFlag .bk).clearFlag .bq else b) man := by
    split
    · split
      · exact (h.clearFlag _).clearFlag _
      · exact (h.clearFlag _).clearFlag _
    · exact h
  unfold Board.clearCastling
  simp only
  generalize (if mov.ptype = some Piece.king then _ else b) = b1 at h1
  have h2 : Consistent (if mov.ptype = some .rook then b1.clearCorner mov.fromSq else b1) man := by
    split
    · exact h1.clearCorner _
    · exact h1
  generalize (if mov.ptype = some Piece.rook then _ else b1) = b2 at h2
  split
  · exact h2.clearCorner _
  · exact h2

theorem Consistent.updateEpsq {man : Placement} (h : Consistent b man) (mov : Move) :
    Consistent (b.updateEpsq mov) man := by
  unfold Board.updateEpsq
  split
  · split
    · exact h.setEpsq _
    · split
      · exact h.setEpsq _
      · exact h.clearEpsq
  · exact h.clearEpsq

/-- **`make_move` keeps the board consistent whenever its piece operations do.** -/
theorem Consistent.makeMove {man : Placement} (h : Consistent b man) (mov : Move)
    (hops : OpsOkAt man (b.moveOps mov)) :
    Consistent (b.makeMove mov) ((b.moveOps mov).foldl PieceOp.apply man) :=
  ((((h.runOps hops).setCastled mov).clearCastling mov).updateEpsq mov).updateCounters mov

theorem hasFlag_clearCorner (b : Board) (sq : Square) (f : CastleFlag) :
    (b.clearCorner sq).hasFlag f = (b.hasFlag f && !decide (sq = f.rookHome)) := by
  unfold Board.clearCorner
  cases hc : Board.cornerFlag sq with
  | none =>
    have hn : sq ≠ f.rookHome := by
      intro e
      rw [cornerFlag_eq_some.mpr e] at hc
      cases hc
    simp [hn]
  | some g =>
    have hiff : g = f ↔ sq = f.rookHome := by
      rw [← cornerFlag_eq_some, hc, Option.some.injEq]
    simp [hasFlag_clearFlag, hiff]

/-- **Which castling flags a move clears.** -/
theorem hasFlag_clearCastling (b : Board) (mov : Move) (f : CastleFlag) :
    (b.clearCastling mov).hasFlag f = (b.hasFlag f &&
      !decide (mov.ptype = some .king ∧ f.color = b.side) &&
      !decide (mov.ptype = some .rook ∧ mov.fromSq = f.rookHome) &&
      !decide (mov.isCapture = true ∧ mov.capPtype = some .rook ∧ mov.toSq = f.rookHome)) := by
  have h1 : (if mov.ptype = some .king then
      if b.side = .white then (b.clearFlag .wk).clearFlag .wq
      else (b.clearFlag .bk).clearFlag .bq else b).hasFlag f =
      (b.hasFlag f && !decide (mov.ptype = some .king ∧ f.color = b.side)) := by
    by_cases hk : mov.ptype = some .king
    · cases hc : b.side <;> cases f <;>
        simp [hk, hasFlag_clearFlag, CastleFlag.color]
    · simp [hk]
  unfold Board.clearCastling
  simp only
  rw [← h1]
  generalize (if mov.ptype = some Piece.king then _ else b) = b1
  have h2 : (if mov.ptype = some .rook then b1.clearCorner mov.fromSq else b1).hasFlag f =
      (b1.hasFlag f && !decide (mov.ptype = some .rook ∧ mov.fromSq = f.rookHome)) := by
    by_cases hk : mov.ptype = some .rook
    · simp [hk, hasFlag_clearCorner]
    · simp [hk]
  rw [← h2]
  generalize (if mov.ptype = some Piece.rook then _ else b1) = b2
  by_cases hc : mov.isCapture = true
  · by_cases hr : mov.capPtype = some .rook
    · simp [hc, hr, hasFlag_clearCorner]
    · simp [hr]
  · simp [hc]

/-- **The flags that are cleared are the rights that are lost.** -/
theorem clearCastling_rights (h : Sim b pos) (hs : Sane pos) {ply : Ply} (hp : pos.Pseudo ply)
    {b' : Board} (hb : SameState b b') (f : CastleFlag) :
    (b'.clearCastling ply.encode).hasFlag f = (pos.apply ply).right f := by
  have hf : b'.hasFlag f = pos.right f := by
    rw [← h.rights f, Board.hasFlag, Board.hasFlag, hb.flags]
  rw [hasFlag_clearCastling, hf, hb.side, h.side]
  simp only [Ply.ptype_encode, Ply.fromSq_encode, Ply.toSq_encode, Ply.capPtype_encode,
    Ply.isCapture_encode, Option.some.injEq, Position.apply]
  cases hr : pos.right f with
  | false => simp
  | true =>
    obtain ⟨hmk, hmr⟩ := hs.rights f hr
    have hsrc := hp.man_src
    have hdst := hs.man_dst hp
    have hcap : ∀ q, pos.man ply.dst = some (f.color, q) → q ≠ .pawn →
        ply.captured = some q ∧ ply.isEp = false ∧ f.color = pos.side.xside := by
      intro q hq hne
      rw [hdst] at hq
      split at hq
      · rename_i hv
        cases hc : ply.captured with
        | none => rw [hc] at hq; cases hq
        | some q' =>
          rw [hc] at hq
          have e1 : q' = q := congrArg Prod.snd (Option.some.inj hq)
          have e2 : pos.side.xside = f.color := congrArg Prod.fst (Option.some.inj hq)
          subst e1
          refine ⟨rfl, ?_, e2.symm⟩
          cases ply with
          | enpassant src dst => cases hc; exact absurd rfl hne
          | _ => rfl
      · cases hq
    have hking : ply.touches f.kingHome = decide (ply.piece = .king ∧ f.color = pos.side) := by
      rw [Bool.eq_iff_iff, decide_eq_true_iff]
      simp only [Ply.touches, Bool.or_eq_true, decide_eq_true_eq]
      constructor
      · rintro (e | e)
        · rw [e, hmk] at hsrc
          have := Option.some.inj hsrc
          exact ⟨(congrArg Prod.snd this).symm, congrArg Prod.fst this⟩
        · obtain ⟨hc, hep, hcol⟩ := hcap .king (e ▸ hmk) (by decide)
          have hvic := hp.victim_ne_king hs (hcol ▸ hmk)
          exfalso
          apply hvic
          rw [← e]
          cases ply with
          | move src dst p cap => cases hc; rfl
          | promote src dst p cap => cases hc; rfl
          | enpassant src dst => cases hep
          | castle f => cases hc
      · rintro ⟨h1, h2⟩
        left
        rw [h1, ← h2] at hsrc
        exact hs.king_unique _ _ _ hsrc hmk
    have hrook : ply.touches f.rookHome =
        (decide (ply.piece = .rook ∧ ply.src = f.rookHome) ||
          decide ((ply.captured.isSome && !ply.isEp) = true ∧ ply.captured = some .rook ∧
            ply.dst = f.rookHome)) := by
      rw [Bool.eq_iff_iff, Bool.or_eq_true, decide_eq_true_iff, decide_eq_true_iff]
      simp only [Ply.touches, Bool.or_eq_true, decide_eq_true_eq]
      constructor
      · rintro (e | e)
        · rw [e, hmr] at hsrc
          exact Or.inl ⟨(congrArg Prod.snd (Option.some.inj hsrc)).symm, e⟩
        · obtain ⟨hc, hep, _⟩ := hcap .rook (e ▸ hmr) (by decide)
          exact Or.inr ⟨by simp [hc, hep], hc, e⟩
      · rintro (⟨_, e⟩ | ⟨_, _, e⟩)
        · exact Or.inl e
        · exact Or.inr e
    rw [hking, hrook, Bool.not_or, Bool.and_assoc, Bool.and_assoc]

theorem epsq_updateEpsq (b' : Board) (ply : Ply) :
    (b'.updateEpsq ply.encode).epsq =
      if ply.piece = .pawn then
        if (ply.dst.val : Int) - ply.src.val = 16 then some (ply.dst - 8)
        else if (ply.dst.val : Int) - ply.src.val = -16 then some (ply.dst + 8)
        else none
      else none := by
  unfold Board.updateEpsq
  simp only [Ply.ptype_encode, Ply.toSq_encode, Ply.fromSq_encode, Option.some.injEq]
  split
  · split
    · rfl
    · split <;> rfl
  · rfl

/-- **The en passant square is the square a pawn passed.** -/
theorem updateEpsq_passed {ply : Ply} (hp : pos.Pseudo ply) (b' : Board) :
    (b'.updateEpsq ply.encode).epsq = ply.passed := by
  rw [epsq_updateEpsq]
  cases ply with
  | move src dst p cap =>
    by_cases hpp : p = .pawn
    · subst hpp
      exact pawn_distance hp.1.2.2
    · simp only [Ply.piece]
      cases p <;> first | exact absurd rfl hpp | rfl
  | promote src dst p cap => exact (pawn_distance hp.1.2.2).trans (promote_not_double hp.1 hp.2.1)
  | enpassant src dst =>
    have ht : dst ∈ targets pos.man pos.side .pawn (some Piece.pawn).isSome src := by
      rw [Option.isSome_some, targets_capture]
      exact hp.2.2
    exact pawn_distance ht
  | castle f => rfl

/-! ## The king squares -/

theorem king_runOps_ops (b : Board) {ply : Ply} (c : Color) (ep : Option Square)
    (hcap : ply.captured ≠ some .king) (hpl : ply.placed = .king → ply.piece = .king) :
    (b.runOps (ply.ops c ep)).king =
      if ply.piece = .king then b.king.set c (some ply.dst) else b.king := by
  cases ply with
  | move src dst p cap =>
    cases cap with
    | none => rfl
    | some q =>
      have hq : q ≠ .king := fun e => hcap (by rw [e]; rfl)
      simp only [Board.runOps, Ply.ops, List.foldl_cons, List.foldl_nil, PieceOp.exec,
        Board.movePiece, Board.removePiece, if_neg hq]
      rfl
  | promote src dst p cap =>
    have hp : p ≠ .king := fun e => by cases hpl e
    cases cap with
    | none =>
      simp [Board.runOps, Ply.ops, PieceOp.exec, Board.placePiece, Board.removePiece, hp,
        Ply.piece]
    | some q =>
      have hq : q ≠ .king := fun e => hcap (by rw [e]; rfl)
      simp [Board.runOps, Ply.ops, PieceOp.exec, Board.placePiece, Board.removePiece, hp, hq,
        Ply.piece]
  | enpassant src dst =>
    cases ep <;>
      simp [Board.runOps, Ply.ops, PieceOp.exec, Board.movePiece, Board.removePiece, Ply.piece]
  | castle f =>
    simp [Board.runOps, Ply.ops, PieceOp.exec, Board.movePiece, Ply.piece, Ply.dst]

theorem samePieces_clearCorner (b : Board) (sq : Square) : SamePieces b (b.clearCorner sq) := by
  unfold Board.clearCorner
  split
  · exact .refl b
  · exact samePieces_clearFlag b _

theorem samePieces_clearCastling (b : Board) (mov : Move) :
    SamePieces b (b.clearCastling mov) := by
  have h1 : SamePieces b (if mov.ptype = some .king then
      if b.side = .white then (b.clearFlag .wk).clearFlag .wq
      else (b.clearFlag .bk).clearFlag .bq else b) := by
    split
    · split
      · exact (samePieces_clearFlag _ _).trans (samePieces_clearFlag _ _)
      · exact (samePieces_clearFlag _ _).trans (samePieces_clearFlag _ _)
    · exact .refl b
  have h2 : ∀ b1 : Board, SamePieces b1
      (if mov.ptype = some .rook then b1.clearCorner mov.fromSq else b1) := by
    intro b1
    split
    · exact samePieces_clearCorner _ _
    · exact .refl _
  have h3 : ∀ b2 : Board, SamePieces b2
      (if mov.isCapture && mov.capPtype = some .rook then b2.clearCorner mov.toSq else b2) := by
    intro b2
    split
    · exact samePieces_clearCorner _ _
    · exact .refl _
  exact (h1.trans (h2 _)).trans (h3 _)

theorem samePieces_updateEpsq (b : Board) (mov : Move) :
    SamePieces b (b.updateEpsq mov) ∧ (b.updateEpsq mov).flags = b.flags := by
  unfold Board.updateEpsq
  split
  · split
    · exact ⟨samePieces_setEpsq b _, rfl⟩
    · split
      · exact ⟨samePieces_setEpsq b _, rfl⟩
      · exact ⟨samePieces_clearEpsq b, rfl⟩
  · exact ⟨samePieces_clearEpsq b, rfl⟩

theorem makeMove_side (b : Board) (mov : Move) : (b.makeMove mov).side = b.side.xside := by
  have h1 := (sameState_runOps b (b.moveOps mov)).side
  have h2 := (sameState_setCastled (b.runOps (b.moveOps mov)) mov).1.side
  have h3 := (samePieces_clearCastling ((b.runOps (b.moveOps mov)).setCastled mov) mov).side
  have h4 := (samePieces_updateEpsq
    (((b.runOps (b.moveOps mov)).setCastled mov).clearCastling mov) mov).1.side
  change (Board.side (Board.updateEpsq _ _)).xside = _
  rw [h4, h3, h2, h1]

theorem makeMove_king (b : Board) (mov : Move) :
    (b.makeMove mov).king = (b.runOps (b.moveOps mov)).king := by
  have h2 := (sameState_setCastled (b.runOps (b.moveOps mov)) mov).2
  have h3 := (samePieces_clearCastling ((b.runOps (b.moveOps mov)).setCastled mov) mov).king
  have h4 := (samePieces_updateEpsq
    (((b.runOps (b.moveOps mov)).setCastled mov).clearCastling mov) mov).1.king
  change Board.king (Board.updateEpsq _ _) = _
  rw [h4, h3, h2]

/-- **`make_move` carries out the move of the rules.** -/
theorem Sim.makeMove (h : Sim b pos) (hs : Sane pos) {ply : Ply} (hp : pos.Pseudo ply) :
    Sim (b.makeMove ply.encode) (pos.apply ply) := by
  have hops : b.moveOps ply.encode = ply.ops pos.side b.getEppawn := by
    rw [moveOps_encode, h.side]
  have hok := opsOkAt_ops h hs hp
  have hstate := sameState_runOps b (b.moveOps ply.encode)
  have hcs := (sameState_setCastled (b.runOps (b.moveOps ply.encode)) ply.encode).1
  have hst : SameState b ((b.runOps (b.moveOps ply.encode)).setCastled ply.encode) :=
    ⟨hcs.side.trans hstate.side, hcs.flags.trans hstate.flags, hcs.epsq.trans hstate.epsq⟩
  have hrights := clearCastling_rights h hs hp hst
  generalize hb1 : (b.runOps (b.moveOps ply.encode)).setCastled ply.encode = b1 at *
  have hfl := (samePieces_updateEpsq (b1.clearCastling ply.encode) ply.encode).2
  have hmk : b.makeMove ply.encode =
      ((b1.clearCastling ply.encode).updateEpsq ply.encode).updateCounters ply.encode := by
    rw [← hb1]; rfl
  refine ⟨?_, ?_, ?_, ?_, ?_⟩
  · have := h.consistent.makeMove ply.encode (by rw [hops]; exact hok)
    rw [hops, foldl_ops h hs hp] at this
    exact this
  · rw [makeMove_side, h.side]
    rfl
  · intro f
    have hfl' : (((b1.clearCastling ply.encode).updateEpsq ply.encode).updateCounters
        ply.encode).flags = (b1.clearCastling ply.encode).flags := hfl
    rw [hmk, ← hrights f, Board.hasFlag, Board.hasFlag, hfl']
  · rw [hmk]
    exact updateEpsq_passed hp _
  · intro c sq hk
    have hking : (b.makeMove ply.encode).king =
        if ply.piece = .king then b.king.set pos.side (some ply.dst) else b.king := by
      rw [makeMove_king, hops]
      exact king_runOps_ops b _ _ (captured_ne_king hs hp) (fun e => hp.placed_eq_king.mp e)
    change (b.makeMove ply.encode).king.get c = some sq
    rw [hking]
    change pos.placement ply sq = some (c, .king) at hk
    rcases eq_or_eq_xside pos.side c with rfl | rfl
    · rw [placement_king hs hp] at hk
      split at hk
      · rename_i e
        rw [if_pos e, PerColor.get_set_self, hk]
      · rename_i e
        rw [if_neg e]
        exact h.king _ _ hk
    · have hk' := ((placement_enemy hs hp sq _).mp hk).1
      split
      · rw [PerColor.get_set, if_neg (ne_xside _)]
        exact h.king _ _ hk'
      · exact h.king _ _ hk'

end HoiChess.Chess
