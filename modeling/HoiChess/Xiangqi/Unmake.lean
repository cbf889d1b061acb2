import HoiChess.Lib.Undo
import HoiChess.Xiangqi.GetFen

/-!
# Taking a move back

With `USE_UNMAKE_MOVE`, `make_move` returns a record of the counters it is about to lose, and
`unmake_move` restores the board from it.  The old board comes back in every field
(`Sim.unmakeMove_makeMove`), as the last assertion of `unmake_move` says, so that a search on a
single board sees the boards that a search on copies sees (`singleXiangqiBoard_agrees`).
-/

namespace HoiChess.Xiangqi

open Chess (Color PerColor ne_xside)
open Rules

/-- What `make_move` keeps for `unmake_move`.  `oldboard` is there in debug builds. -/
structure BoardHistory where
  oldboard : Board
  move : Move
  movecnt50 : Int
  pceMovecntTo : BitVec 32

namespace Board

/-- The record that `make_move` returns.  Each field is read before it changes; a null move leaves
`pce_movecnt_to` as it is. -/
def history (b : Board) (mov : Move) : BoardHistory where
  oldboard := b
  move := mov
  movecnt50 := b.movecnt50
  pceMovecntTo := if mov.isNull then 0#32 else (mov.movTo.map b.pceMovecnt).getD 0#32

section Keys

variable [k : Keys] (b : Board)

/-- Restore `pce_movecnt`, `movecnt50` and `moveno`, and switch back sides. -/
def restored (hist : BoardHistory) : Board :=
  let mov := hist.move
  { b.switchSides with
    pceMovecnt :=
      if mov.isNull then b.pceMovecnt
      else
        match mov.movFrom, mov.movTo with
        | some src, some dst =>
          Function.update (Function.update b.pceMovecnt src (b.pceMovecnt dst - 1)) dst
            hist.pceMovecntTo
        | _, _ => b.pceMovecnt
    movecnt50 := hist.movecnt50
    moveno := if b.side = .white then b.moveno - 1 else b.moveno }

/-- The piece part of `unmake_move`. -/
def unmovePieces (mov : Move) : Board :=
  match mov.movFrom, mov.movTo, mov.movPtype with
  | some src, some dst, some p =>
    if mov.isCapture then
      match mov.movCapPtype with
      | some q => (b.movePiece dst src b.side p).placePiece dst b.side.xside q
      | none => b.movePiece dst src b.side p
    else if mov.isNormal then b.movePiece dst src b.side p
    else b
  | _, _, _ => b

def unmakeMove (hist : BoardHistory) : Board := (b.restored hist).unmovePieces hist.move

/-- A man on a square, as `remove_piece` and `move_piece` assert it, or none. -/
def Holds (sq : Square) (m : Option Man) : Prop :=
  b.colorAt sq = m.map Prod.fst ∧ b.pieceAt sq = m.map Prod.snd

/-- What `move_piece` and `place_piece` assert when a move is taken back. -/
def UnmovesOk (mov : Move) : Prop :=
  ∀ src ∈ mov.movFrom, ∀ dst ∈ mov.movTo, ∀ p ∈ mov.movPtype, mov.isNull = false →
    b.Holds dst (some (b.side, p)) ∧ b.Holds src none ∧
      (mov.isCapture = true → (b.movePiece dst src b.side p).Holds dst none)

/-- What `unmake_move` asserts: the men are where they have to be, the old board comes back, and
the move is valid there. -/
structure UnmakeOk (hist : BoardHistory) : Prop where
  men : (b.restored hist).UnmovesOk hist.move
  oldboard : b.unmakeMove hist = hist.oldboard
  valid : (b.unmakeMove hist).isValidMove hist.move = true

end Keys

end Board

section Undo

variable [k : Keys] {b b' : Board} {man : Placement} {pos : Position} {ply : Ply}

/-- **The men and the remaining fields determine the board.** -/
theorem Consistent.eq_of_rest (h : Consistent b man) (h' : Consistent b' man)
    (hside : b'.side = b.side) (hmoveno : b'.moveno = b.moveno)
    (hmovecnt : b'.movecnt50 = b.movecnt50) (hking : b'.king = b.king)
    (hpce : b'.pceMovecnt = b.pceMovecnt) : b' = b := by
  rw [h'.eq_of h hside hking, hmoveno, hmovecnt, hpce]

theorem Consistent.holds (h : Consistent b man) (sq : Square) : b.Holds sq (man sq) :=
  ⟨h.colors sq, h.pieces sq⟩

theorem Consistent.restored (h : Consistent b man) (hist : BoardHistory) :
    Consistent (b.restored hist) man :=
  ⟨h.pieces, h.colors, h.king, h.material, h.switchSides.hash, h.switchSides.pawnhash⟩

theorem unmovePieces_encode (b : Board) (ply : Ply) :
    b.unmovePieces ply.encode =
      match ply.cap with
      | none => b.movePiece ply.dst ply.src b.side ply.piece
      | some q =>
        (b.movePiece ply.dst ply.src b.side ply.piece).placePiece ply.dst b.side.xside q := by
  unfold Ply.encode
  cases ply.cap with
  | none =>
    show (if Move.isCapture _ then _ else if Move.isNormal _ then _ else _) = _
    rw [Move.isCapture_normal, Move.isNormal_normal]
    rfl
  | some q =>
    show (if Move.isCapture _ then _ else _) = _
    rw [Move.isCapture_capture]
    rfl

omit k in
/-- The move number goes up with one side's moves, and down with the same side's. -/
theorem moveno_back (p : Prop) [Decidable p] (n : Int) :
    (if p then (if p then n + 1 else n) - 1 else if p then n + 1 else n) = n := by
  split <;> omega

/-- The counters of a board whose move is taken back. -/
theorem restored_makeMove (b : Board) (ply : Ply) (hne : ply.src ≠ ply.dst) :
    ((b.makeMove ply.encode).restored (b.history ply.encode)).moveno = b.moveno ∧
      ((b.makeMove ply.encode).restored (b.history ply.encode)).pceMovecnt = b.pceMovecnt := by
  have hmoved : (b.movePieces ply.encode).side = b.side ∧
      (b.movePieces ply.encode).moveno = b.moveno ∧
      (b.movePieces ply.encode).pceMovecnt = b.pceMovecnt := by
    rw [movePieces_encode]
    cases ply.cap <;> exact ⟨rfl, rfl, rfl⟩
  obtain ⟨hside, hmoveno, hpce⟩ := hmoved
  constructor
  · rw [← hmoveno]
    exact moveno_back _ _
  · have hmade : (b.makeMove ply.encode).pceMovecnt = Function.update
        (Function.update b.pceMovecnt ply.dst (b.pceMovecnt ply.src + 1)) ply.src 0 := by
      show (if ply.encode.isNull then (b.movePieces ply.encode).pceMovecnt else
        match ply.encode.movFrom, ply.encode.movTo with
        | some src, some dst => Function.update (Function.update (b.movePieces ply.encode).pceMovecnt
            dst ((b.movePieces ply.encode).pceMovecnt src + 1)) src 0
        | _, _ => (b.movePieces ply.encode).pceMovecnt) = _
      rw [Ply.isNull_encode, Ply.movFrom_encode, Ply.movTo_encode, hpce]
      rfl
    have hback : ((b.makeMove ply.encode).restored (b.history ply.encode)).pceMovecnt =
        Function.update (Function.update (b.makeMove ply.encode).pceMovecnt ply.src
          ((b.makeMove ply.encode).pceMovecnt ply.dst - 1)) ply.dst (b.pceMovecnt ply.dst) := by
      show (if ply.encode.isNull then (b.makeMove ply.encode).pceMovecnt else
        match ply.encode.movFrom, ply.encode.movTo with
        | some src, some dst => Function.update (Function.update (b.makeMove ply.encode).pceMovecnt
            src ((b.makeMove ply.encode).pceMovecnt dst - 1)) dst
              (if ply.encode.isNull then 0#32 else (ply.encode.movTo.map b.pceMovecnt).getD 0#32)
        | _, _ => (b.makeMove ply.encode).pceMovecnt) = _
      rw [Ply.isNull_encode, Ply.movFrom_encode, Ply.movTo_encode]
      rfl
    have hcount : b.pceMovecnt ply.src + 1 - 1 = b.pceMovecnt ply.src := BitVec.add_sub_cancel _ _
    rw [hback, hmade, Function.update_of_ne hne.symm, Function.update_self, hcount,
      Function.update_idem, Function.update_comm hne, Function.update_idem, Function.update_comm hne.symm]
    rw [Function.update_eq_self, Function.update_eq_self]

/-- **The men go back**, and the operations find them as they assert. -/
theorem Consistent.unmovePieces {r : Board} (hr : Consistent r (pos.placement ply))
    (hside : r.side = pos.side) (hp : pos.Pseudo ply) :
    Consistent (r.unmovePieces ply.encode) pos.man ∧ r.UnmovesOk ply.encode := by
  have hne := hp.src_ne_dst
  have hsrc := hp.man_src
  have hdst := hp.man_dst
  have hfrom : pos.placement ply ply.src = none := by
    show (Function.update (Function.update pos.man ply.src none) ply.dst _ : Placement) ply.src = none
    rw [Function.update_of_ne hne, Function.update_self]
  have hto : pos.placement ply ply.dst = some (pos.side, ply.piece) := Function.update_self ..
  have hleft : Function.update (pos.placement ply) ply.dst none ply.src = none := by
    rw [Function.update_of_ne hne, hfrom]
  have hmove := hr.movePiece hto hleft
  have hempty : (Function.update (Function.update (pos.placement ply) ply.dst none) ply.src
      (some (pos.side, ply.piece)) : Placement) ply.dst = none := by
    rw [Function.update_of_ne hne.symm, Function.update_self]
  have hback : Function.update (Function.update (Function.update (pos.placement ply) ply.dst none)
      ply.src (some (pos.side, ply.piece))) ply.dst (pos.man ply.dst) = pos.man := by
    unfold Position.placement
    rw [Function.update_idem, Function.update_comm hne, Function.update_idem, ← hsrc,
      Function.update_comm hne.symm, Function.update_idem, Function.update_comm hne,
      Function.update_eq_self, Function.update_eq_self]
  constructor
  · rw [unmovePieces_encode, hside]
    cases hc : ply.cap with
    | none =>
      rw [hc] at hdst
      rw [hdst] at hback
      have hkeep : Function.update (Function.update (pos.placement ply) ply.dst none) ply.src
          (some (pos.side, ply.piece)) = pos.man := by
        rw [← hback]
        exact (Function.update_eq_self_iff.mpr hempty.symm).symm
      exact hkeep ▸ hmove
    | some q =>
      rw [hc] at hdst
      rw [hdst] at hback
      exact hback ▸ hmove.placePiece pos.side.xside q hempty
  · intro src hs dst hd p hpt _
    rw [Ply.movFrom_encode] at hs
    rw [Ply.movTo_encode] at hd
    rw [Ply.movPtype_encode] at hpt
    cases hs
    cases hd
    cases hpt
    rw [hside]
    refine ⟨hto ▸ hr.holds ply.dst, hfrom ▸ hr.holds ply.src, fun _ => ?_⟩
    exact hempty ▸ hmove.holds ply.dst

theorem king_unmovePieces {r : Board} (hcap : ply.cap ≠ some .king) :
    (r.unmovePieces ply.encode).king =
      if ply.piece = .king then r.king.set r.side (some ply.src) else r.king := by
  rw [unmovePieces_encode]
  cases hc : ply.cap with
  | none => rfl
  | some q =>
    have hq : q ≠ .king := fun e => hcap (by rw [hc, e])
    show (if q = .king then _ else _) = _
    rw [if_neg hq]
    rfl

theorem same_unmovePieces (b : Board) (ply : Ply) :
    (b.unmovePieces ply.encode).side = b.side ∧ (b.unmovePieces ply.encode).moveno = b.moveno ∧
      (b.unmovePieces ply.encode).movecnt50 = b.movecnt50 ∧
      (b.unmovePieces ply.encode).pceMovecnt = b.pceMovecnt := by
  rw [unmovePieces_encode]
  cases ply.cap <;> exact ⟨rfl, rfl, rfl, rfl⟩

theorem Sim.side_restored (h : Sim b pos) (hs : Sane pos) (hp : pos.Pseudo ply) :
    ((b.makeMove ply.encode).restored (b.history ply.encode)).side = b.side := by
  show (b.makeMove ply.encode).side.xside = b.side
  rw [(h.makeMove hs.toValid hs.safe hp).side, h.side]
  exact Chess.xside_xside pos.side

/-- The kings are back where they were. -/
theorem Sim.king_unmovePieces (h : Sim b pos) (hs : Sane pos) (hp : pos.Pseudo ply) {r : Board}
    (hside : r.side = b.side) (hking : r.king = (b.movePieces ply.encode).king) :
    (r.unmovePieces ply.encode).king = b.king := by
  rw [Xiangqi.king_unmovePieces (hp.cap_ne_king hs.safe), hside, hking]
  refine PerColor.ext_get fun c => ?_
  have hold : (b.movePieces ply.encode).king.get c =
      if c = b.side ∧ ply.piece = .king then some ply.dst else b.getKing c :=
    getKing_movePieces b (hp.cap_ne_king hs.safe) c
  by_cases hk : ply.piece = .king
  · rw [if_pos hk, PerColor.get_set]
    by_cases hc : b.side = c
    · subst hc
      rw [if_pos rfl]
      refine (h.king b.side ply.src ?_).symm
      rw [hp.man_src, hk, h.side]
    · rw [if_neg hc, hold, if_neg fun e => hc e.1.symm]
  · rw [if_neg hk, hold, if_neg fun e => hk e.2]

/-- **`unmake_move` brings the old board back.** -/
theorem Sim.unmakeMove_makeMove (h : Sim b pos) (hs : Sane pos) (hp : pos.Pseudo ply) :
    (b.makeMove ply.encode).unmakeMove (b.history ply.encode) = b := by
  have hr := (h.makeMove hs.toValid hs.safe hp).consistent.restored (b.history ply.encode)
  have hside := h.side_restored hs hp
  obtain ⟨hmoveno, hpce⟩ := restored_makeMove b ply hp.src_ne_dst
  have hking : ((b.makeMove ply.encode).restored (b.history ply.encode)).king =
      (b.movePieces ply.encode).king := rfl
  have hmovecnt : ((b.makeMove ply.encode).restored (b.history ply.encode)).movecnt50 =
      b.movecnt50 := rfl
  show ((b.makeMove ply.encode).restored (b.history ply.encode)).unmovePieces ply.encode = b
  generalize (b.makeMove ply.encode).restored (b.history ply.encode) = r at *
  obtain ⟨s1, s2, s3, s4⟩ := same_unmovePieces r ply
  exact h.consistent.eq_of_rest (hr.unmovePieces (hside.trans h.side) hp).1 (s1.trans hside)
    (s2.trans hmoveno) (s3.trans hmovecnt) (h.king_unmovePieces hs hp hside hking) (s4.trans hpce)

/-- A generated move is valid. -/
theorem Sim.isValidMove_of_pseudo (h : Sim b pos) (hp : pos.Pseudo ply) :
    b.isValidMove ply.encode = true := by
  have hsrc := h.consistent.holds ply.src
  have hdst := h.consistent.holds ply.dst
  rw [hp.man_src] at hsrc
  rw [hp.man_dst] at hdst
  unfold Board.isValidMove
  rw [Ply.isNull_encode, Ply.movFrom_encode, Ply.movTo_encode, Ply.movPtype_encode,
    Ply.isCapture_encode]
  simp only [Bool.false_eq_true, if_false]
  rw [hsrc.1, hsrc.2, hdst.1, h.side]
  cases ply.cap <;> simp

/-- **What `unmake_move` asserts holds.** -/
theorem Sim.unmakeOk (h : Sim b pos) (hs : Sane pos) (hp : pos.Pseudo ply) :
    (b.makeMove ply.encode).UnmakeOk (b.history ply.encode) := by
  have hundo := h.unmakeMove_makeMove hs hp
  have hr := (h.makeMove hs.toValid hs.safe hp).consistent.restored (b.history ply.encode)
  have hside := (h.side_restored hs hp).trans h.side
  refine ⟨(hr.unmovePieces hside hp).2, hundo, ?_⟩
  rw [hundo]
  exact h.isValidMove_of_pseudo hp

/-- A null move is taken back as well. -/
theorem Consistent.unmakeOk_null (h : Consistent b man) :
    (b.makeMove .null).UnmakeOk (b.history .null) := by
  have hnull : (b.history .null).move.isNull = true := Move.isNull_null
  have hmade : (b.makeMove .null).pceMovecnt = b.pceMovecnt := by
    show (Board.updateCounters _ .null).pceMovecnt = _
    simp only [Board.updateCounters, Move.isNull_null, if_true]
    rfl
  have hundo : (b.makeMove .null).unmakeMove (b.history .null) = b := by
    refine h.eq_of_rest ((h.updateCounters .null).restored (b.history .null)) ?_ ?_ rfl rfl
      ((if_pos hnull).trans hmade)
    · exact Chess.xside_xside b.side
    · exact moveno_back _ _
  refine ⟨fun src hs dst hd p hpt hn => ?_, hundo, ?_⟩
  · rw [hnull] at hn
    cases hn
  · rw [hundo]
    exact if_pos hnull

/-- `make_move` and `unmake_move`, with what the latter asserts. -/
def boardGame : Undo.Game Board Move BoardHistory where
  make b mov := b.makeMove mov
  record := Board.history
  unmake b hist := b.unmakeMove hist
  Ok b hist := b.UnmakeOk hist

/-- The moves of a search: listed legal ones, and a null move when not in check. -/
def Searched (b : Board) (mov : Move) : Prop :=
  mov ∈ b.legalMoves.moves ∨ mov = .null ∧ b.inCheck = false

/-- **A search on a single board sees what a search on copies sees**, and no assertion of
`unmake_move` fails. -/
theorem singleXiangqiBoard_agrees (h : ReachedWithNull b) {as : List (Undo.Act Move)}
    (has : Run.Along (Undo.copyStep boardGame) (Undo.Admits Searched) (b, []) as) :
    (Run.run (Undo.placeStep boardGame) (b, []) as).1 =
        (Run.run (Undo.copyStep boardGame) (b, []) as).1 ∧
      Run.Along (Undo.placeStep boardGame) (Undo.Asserts boardGame) (b, []) as := by
  refine Undo.inPlace_agrees (P := ReachedWithNull) (fun b mov hb hmov => ?_)
    (fun b mov hb hmov => ?_) h (List.forall_mem_nil _) trivial has
  · rcases hmov with hmov | ⟨rfl, hcheck⟩
    · exact .move hb hmov
    · exact .null hb hcheck
  · obtain ⟨pos, hsim, hs⟩ := hb.sim
    rcases hmov with hmov | ⟨rfl, hcheck⟩
    · obtain ⟨ply, hl, rfl⟩ := (hsim.mem_legalMoves hs).mp hmov
      have hok := hsim.unmakeOk hs hl.1
      exact ⟨hok, hok.oldboard⟩
    · have hok := hsim.consistent.unmakeOk_null
      exact ⟨hok, hok.oldboard⟩

omit k in
/-- White takes a knight with a cannon, and takes that back. -/
theorem singleXiangqiBoard_agrees_capture :
    let _ := sampleKeys
    ∃ b, Board.parseFen openingFen = .accepted b ∧
      ∃ mov ∈ b.legalMoves.moves, mov.movCapPtype = some .knight ∧
        (Run.run (Undo.placeStep boardGame) (b, []) [.make mov, .unmake]).1 = b := by
  intro _
  obtain ⟨b, hb, _⟩ := parseFen_opening
  have hread : (match Board.parseFen openingFen with
      | .accepted b => decide ((Ply.mk 19 82 .cannon (some .knight)).encode ∈
          (b.generateMoves .empty).moves) &&
        b.isLegalMove (Ply.mk 19 82 .cannon (some .knight)).encode
      | _ => false) = true := by decide +kernel
  rw [hb, Bool.and_eq_true, decide_eq_true_eq] at hread
  have hmem : (Ply.mk 19 82 .cannon (some .knight)).encode ∈ b.legalMoves.moves :=
    (Sim.legalMoves_perm b).mem_iff.mpr (List.mem_filter.mpr hread)
  have has : Run.Along (Undo.copyStep boardGame) (Undo.Admits Searched) (b, [])
      [.make (Ply.mk 19 82 .cannon (some .knight)).encode, .unmake] := ⟨.inl hmem, trivial, trivial⟩
  exact ⟨b, hb, _, hmem, by decide, (singleXiangqiBoard_agrees (.opening hb) has).1⟩

end Undo

end HoiChess.Xiangqi
