import HoiChess.Chess.GetFen
import HoiChess.Chess.Validity
import HoiChess.Lib.Undo

/-!
# Taking a move back

With `USE_UNMAKE_MOVE`, `make_move` returns a record of what it is about to lose, and
`unmake_move` restores the board from it.  The board that comes back is the old one in every
field (`Sim.unmakeMove_makeMove`), as the last assertion of `unmake_move` says, unless a side
castles that has castled before.  That cannot happen in a game, so that a search on a single board
sees the boards that a search on copies sees (`singleBoard_agrees`).
-/

namespace HoiChess.Chess

open WordSet Rules

/-- What `make_move` keeps for `unmake_move`.  `oldboard` is there in debug builds. -/
structure BoardHistory where
  oldboard : Board
  move : Move
  movecnt50 : Int
  flags : BitVec 32
  epsq : Option Square
  pceMovecntTo : BitVec 32

namespace Board

/-- The record that `make_move` returns.  Each field is read before it changes; a null move leaves
`pce_movecnt_to` as it is. -/
def history (b : Board) (mov : Move) : BoardHistory where
  oldboard := b
  move := mov
  movecnt50 := b.movecnt50
  flags := b.flags
  epsq := b.epsq
  pceMovecntTo := if mov.isNull then 0#32 else b.pceMovecnt.get mov.toSq

section Keys

variable [k : Build] (b : Board)

/-- The rook's part of castling, back again. -/
def uncastleRookOp (c : Color) (dst : Square) : List PieceOp :=
  if dst = c1 then [.move d1 a1 c .rook]
  else if dst = g1 then [.move f1 h1 c .rook]
  else if dst = c8 then [.move d8 a8 c .rook]
  else if dst = g8 then [.move f8 h8 c .rook]
  else []

/-- The piece operations of `unmake_move`, in the order in which it executes them. -/
def unmoveOps (mov : Move) : List PieceOp :=
  if mov.isCastle then
    .move mov.toSq mov.fromSq b.side .king :: uncastleRookOp b.side mov.toSq
  else if mov.isEnpassant then
    .move mov.toSq mov.fromSq b.side .pawn ::
      (b.getEppawn.map (fun sq => .place sq b.side.xside .pawn)).toList
  else if mov.isCapture then
    if mov.isPromotion then
      (mov.promoteTo.map (.remove mov.toSq b.side)).toList ++
        (mov.capPtype.map (.place mov.toSq b.side.xside)).toList ++
        [.place mov.fromSq b.side .pawn]
    else
      (mov.ptype.map (.move mov.toSq mov.fromSq b.side)).toList ++
        (mov.capPtype.map (.place mov.toSq b.side.xside)).toList
  else if mov.isNormal then
    if mov.isPromotion then
      (mov.promoteTo.map (.remove mov.toSq b.side)).toList ++ [.place mov.fromSq b.side .pawn]
    else (mov.ptype.map (.move mov.toSq mov.fromSq b.side)).toList
  else []

/-- Restore `pce_movecnt`, `movecnt50` and `moveno`, and switch back sides. -/
def restoreCounters (hist : BoardHistory) : Board :=
  let mov := hist.move
  { b.switchSides with
    pceMovecnt :=
      if mov.isNull then b.pceMovecnt
      else (b.pceMovecnt.set mov.fromSq.val (b.pceMovecnt.get mov.toSq - 1)).set
        mov.toSq.val hist.pceMovecntTo
    movecnt50 := hist.movecnt50
    moveno := if b.side = .white then b.moveno - 1 else b.moveno }

/-- The flag is set again if the record has it. -/
def restoreFlag (flags : BitVec 32) (f : CastleFlag) : Board :=
  if flags &&& f.mask != 0#32 then b.setFlag f else b

def restoreFlags (flags : BitVec 32) : Board :=
  (((b.restoreFlag flags .wk).restoreFlag flags .wq).restoreFlag flags .bk).restoreFlag flags .bq

/-- The board of which the pieces are moved back. -/
def restored (hist : BoardHistory) : Board :=
  ((b.restoreCounters hist).setEpsq hist.epsq).restoreFlags hist.flags

def clearCastled (mov : Move) : Board :=
  if mov.isCastle then { b with hasCastled := b.hasCastled.set b.side false } else b

def unmakeMove (hist : BoardHistory) : Board :=
  let b := b.restored hist
  (b.runOps (b.unmoveOps hist.move)).clearCastled hist.move

/-- What `unmake_move` asserts: the piece operations find the board as they have to, castling
finds its flag and an en passant capture its square, and the old board comes back. -/
structure UnmakeOk (hist : BoardHistory) : Prop where
  ops : (b.restored hist).OpsOk ((b.restored hist).unmoveOps hist.move)
  castle : hist.move.isCastle = true →
    ∃ f : CastleFlag, hist.move.toSq = f.kingDest ∧ (b.restored hist).side = f.color ∧
      (b.restored hist).hasFlag f = true
  enpassant : hist.move.isEnpassant = true → (b.restored hist).epsq = some hist.move.toSq
  oldboard : b.unmakeMove hist = hist.oldboard
  valid : (b.unmakeMove hist).isValidMove hist.move = true

end Keys

end Board

/-! ## Boards with the same men -/

section Equal

variable [k : Build] {b b' : Board} {man : Placement}

/-- The fields that do not follow from where the men stand. -/
structure SameRest (b b' : Board) : Prop where
  side : b'.side = b.side
  moveno : b'.moveno = b.moveno
  movecnt50 : b'.movecnt50 = b.movecnt50
  king : b'.king = b.king
  flags : b'.flags = b.flags
  epsq : b'.epsq = b.epsq
  hasCastled : b'.hasCastled = b.hasCastled
  pceMovecnt : b'.pceMovecnt = b.pceMovecnt

/-- **The men and the remaining fields determine the board.** -/
theorem Consistent.eq_of_sameRest (h : Consistent b man) (h' : Consistent b' man)
    (hs : SameRest b b') : b' = b := by
  rw [h'.eq_of h hs.side hs.flags hs.epsq hs.king, hs.moveno, hs.movecnt50, hs.hasCastled,
    hs.pceMovecnt]

end Equal

/-! ## The flags come back -/

section Flags

variable {fl fl' fl'' : BitVec 32}

/-- Some of the castling flags are gone. -/
def Fewer (fl fl' : BitVec 32) : Prop :=
  ∀ i, mem fl' i = mem fl i ∨ (∃ f : CastleFlag, i = f.bit) ∧ mem fl' i = false

theorem Fewer.refl (fl : BitVec 32) : Fewer fl fl := fun _ => .inl rfl

theorem Fewer.trans (h : Fewer fl fl') (h' : Fewer fl' fl'') : Fewer fl fl'' := by
  intro i
  rcases h' i with he | he
  · rw [he]
    exact h i
  · exact .inr he

variable [Build]

theorem fewer_clearFlag (b : Board) (f : CastleFlag) : Fewer b.flags (b.clearFlag f).flags := by
  unfold Board.clearFlag
  split
  · intro i
    show mem (b.flags &&& ~~~f.mask) i = _ ∨ _ ∧ mem (b.flags &&& ~~~f.mask) i = false
    rw [f.mask_eq]
    change mem (erase b.flags f.bit) i = _ ∨ _ ∧ mem (erase b.flags f.bit) i = false
    rw [mem_erase]
    by_cases hi : f.bit = i
    · exact .inr ⟨⟨f, hi.symm⟩, by simp [hi]⟩
    · exact .inl (by simp [hi])
  · exact .refl _

theorem fewer_clearCorner (b : Board) (sq : Square) : Fewer b.flags (b.clearCorner sq).flags := by
  unfold Board.clearCorner
  split
  · exact .refl _
  · exact fewer_clearFlag b _

theorem fewer_clearCastling (b : Board) (mov : Move) :
    Fewer b.flags (b.clearCastling mov).flags := by
  have hite : ∀ (p : Prop) [Decidable p] (b₁ b₂ : Board), Fewer b₁.flags b₂.flags →
      Fewer b₁.flags (if p then b₂ else b₁).flags := by
    intro p _ b₁ b₂ h
    split
    · exact h
    · exact .refl _
  refine ((hite _ b _ ?_).trans (hite _ _ _ (fewer_clearCorner _ _))).trans
    (hite _ _ _ (fewer_clearCorner _ _))
  split
  · exact (fewer_clearFlag b .wk).trans (fewer_clearFlag _ .wq)
  · exact (fewer_clearFlag b .bk).trans (fewer_clearFlag _ .bq)

theorem mem_restoreFlag (b : Board) (f : CastleFlag) (i : Fin 32) :
    mem (b.restoreFlag fl f).flags i = (mem b.flags i || mem fl i && decide (i = f.bit)) := by
  have hmem : (fl &&& f.mask != 0#32) = mem fl f.bit := by
    rw [f.mask_eq]
    rfl
  have hset : ∀ i, mem (b.setFlag f).flags i = (mem b.flags i || decide (i = f.bit)) := by
    intro i
    unfold Board.setFlag
    split
    · rename_i hf
      rw [hasFlag_eq_mem] at hf
      by_cases hi : i = f.bit
      · simp [hi, hf]
      · simp [hi]
    · show mem (b.flags ||| f.mask) i = _
      rw [f.mask_eq]
      change mem (insert b.flags f.bit) i = _
      rw [mem_insert]
      simp only [eq_comm]
  unfold Board.restoreFlag
  rw [hmem]
  by_cases hi : i = f.bit
  · subst hi
    cases hf : mem fl f.bit with
    | true => simp [hset]
    | false => simp
  · split
    · rw [hset]
      simp [hi]
    · simp [hi]

/-- **The flags that were there are there again.** -/
theorem flags_restoreFlags {b : Board} (h : Fewer fl b.flags) : (b.restoreFlags fl).flags = fl := by
  refine WordSet.ext fun i => ?_
  simp only [Board.restoreFlags, mem_restoreFlag]
  rcases h i with he | ⟨⟨f, rfl⟩, he⟩
  · rw [he]
    cases mem fl i <;> simp
  · rw [he]
    cases f <;> simp [CastleFlag.bit]

end Flags

/-! ## The counters come back -/

section Counters

variable [k : Build] {b b' b'' : Board}

/-- The fields that neither the pieces nor the flags nor the en passant square touch. -/
structure SameCounts (b b' : Board) : Prop where
  moveno : b'.moveno = b.moveno
  movecnt50 : b'.movecnt50 = b.movecnt50
  pceMovecnt : b'.pceMovecnt = b.pceMovecnt
  hasCastled : b'.hasCastled = b.hasCastled

omit k in
theorem SameCounts.refl (b : Board) : SameCounts b b := ⟨rfl, rfl, rfl, rfl⟩

omit k in
theorem SameCounts.trans (h : SameCounts b b') (h' : SameCounts b' b'') : SameCounts b b'' :=
  ⟨h'.1.trans h.1, h'.2.trans h.2, h'.3.trans h.3, h'.4.trans h.4⟩

theorem sameCounts_runOps (b : Board) (ops : List PieceOp) : SameCounts b (b.runOps ops) := by
  induction ops generalizing b with
  | nil => exact .refl b
  | cons op ops ih =>
    have hop : SameCounts b (op.exec b) := by cases op <;> exact ⟨rfl, rfl, rfl, rfl⟩
    exact hop.trans (ih (op.exec b))

theorem sameCounts_setFlag (b : Board) (f : CastleFlag) : SameCounts b (b.setFlag f) := by
  unfold Board.setFlag
  split <;> exact ⟨rfl, rfl, rfl, rfl⟩

theorem sameCounts_clearFlag (b : Board) (f : CastleFlag) : SameCounts b (b.clearFlag f) := by
  unfold Board.clearFlag
  split <;> exact ⟨rfl, rfl, rfl, rfl⟩

theorem sameCounts_clearCorner (b : Board) (sq : Square) : SameCounts b (b.clearCorner sq) := by
  unfold Board.clearCorner
  split
  · exact .refl b
  · exact sameCounts_clearFlag b _

theorem sameCounts_clearCastling (b : Board) (mov : Move) : SameCounts b (b.clearCastling mov) := by
  have hite : ∀ (p : Prop) [Decidable p] (b₁ b₂ : Board), SameCounts b₁ b₂ →
      SameCounts b₁ (if p then b₂ else b₁) := by
    intro p _ b₁ b₂ h
    split
    · exact h
    · exact .refl _
  refine ((hite _ b _ ?_).trans (hite _ _ _ (sameCounts_clearCorner _ _))).trans
    (hite _ _ _ (sameCounts_clearCorner _ _))
  split
  · exact (sameCounts_clearFlag b .wk).trans (sameCounts_clearFlag _ .wq)
  · exact (sameCounts_clearFlag b .bk).trans (sameCounts_clearFlag _ .bq)

theorem sameCounts_updateEpsq (b : Board) (mov : Move) : SameCounts b (b.updateEpsq mov) := by
  unfold Board.updateEpsq
  split
  · split
    · exact ⟨rfl, rfl, rfl, rfl⟩
    · split <;> exact ⟨rfl, rfl, rfl, rfl⟩
  · exact ⟨rfl, rfl, rfl, rfl⟩

/-- A flag that is restored changes nothing but the flags and the hash key. -/
theorem restoreFlag_same (b : Board) (fl : BitVec 32) (f : CastleFlag) :
    SamePieces b (b.restoreFlag fl f) ∧ SameCounts b (b.restoreFlag fl f) ∧
      (b.restoreFlag fl f).epsq = b.epsq := by
  unfold Board.restoreFlag
  split
  · exact ⟨samePieces_setFlag b f, sameCounts_setFlag b f, epsq_setFlag b f⟩
  · exact ⟨.refl b, .refl b, rfl⟩

theorem restoreFlags_same (b : Board) (fl : BitVec 32) :
    SamePieces b (b.restoreFlags fl) ∧ SameCounts b (b.restoreFlags fl) ∧
      (b.restoreFlags fl).epsq = b.epsq := by
  obtain ⟨h1, c1, e1⟩ := restoreFlag_same b fl .wk
  obtain ⟨h2, c2, e2⟩ := restoreFlag_same (b.restoreFlag fl .wk) fl .wq
  obtain ⟨h3, c3, e3⟩ := restoreFlag_same ((b.restoreFlag fl .wk).restoreFlag fl .wq) fl .bk
  obtain ⟨h4, c4, e4⟩ := restoreFlag_same
    (((b.restoreFlag fl .wk).restoreFlag fl .wq).restoreFlag fl .bk) fl .bq
  exact ⟨((h1.trans h2).trans h3).trans h4, ((c1.trans c2).trans c3).trans c4,
    e4.trans (e3.trans (e2.trans e1))⟩

/-- What is known of a move that was made, for the fields beside the men. -/
theorem makeMove_rest (b : Board) (mov : Move) :
    ∃ b' : Board, SameCounts b { b' with hasCastled := b.hasCastled } ∧
      b'.hasCastled = ((b.runOps (b.moveOps mov)).setCastled mov).hasCastled ∧
      Fewer b.flags b'.flags ∧ b'.side = b.side ∧ b.makeMove mov = b'.updateCounters mov := by
  have hr := sameCounts_runOps b (b.moveOps mov)
  have hs := sameState_runOps b (b.moveOps mov)
  have hcs := (sameState_setCastled (b.runOps (b.moveOps mov)) mov).1
  have hc : SameCounts (b.runOps (b.moveOps mov)) { (b.runOps (b.moveOps mov)).setCastled mov with
      hasCastled := (b.runOps (b.moveOps mov)).hasCastled } := by
    unfold Board.setCastled
    split <;> exact ⟨rfl, rfl, rfl, rfl⟩
  generalize hb1 : (b.runOps (b.moveOps mov)).setCastled mov = b1 at *
  have h2 := sameCounts_clearCastling b1 mov
  have h3 := sameCounts_updateEpsq (b1.clearCastling mov) mov
  have he := samePieces_updateEpsq (b1.clearCastling mov) mov
  refine ⟨(b1.clearCastling mov).updateEpsq mov, ⟨?_, ?_, ?_, rfl⟩, ?_, ?_, ?_, by rw [← hb1]; rfl⟩
  · exact h3.moveno.trans (h2.moveno.trans (hc.moveno.trans hr.moveno))
  · exact h3.movecnt50.trans (h2.movecnt50.trans (hc.movecnt50.trans hr.movecnt50))
  · exact h3.pceMovecnt.trans (h2.pceMovecnt.trans (hc.pceMovecnt.trans hr.pceMovecnt))
  · exact h3.hasCastled.trans h2.hasCastled
  · rw [he.2]
    have h := fewer_clearCastling b1 mov
    rwa [hcs.flags, hs.flags] at h
  · exact he.1.side.trans ((samePieces_clearCastling b1 mov).side.trans
      (hcs.side.trans hs.side))

/-- Everything beside the men and the castling record is as it was. -/
structure Back (b b' : Board) : Prop where
  side : b'.side = b.side
  moveno : b'.moveno = b.moveno
  movecnt50 : b'.movecnt50 = b.movecnt50
  flags : b'.flags = b.flags
  epsq : b'.epsq = b.epsq
  pceMovecnt : b'.pceMovecnt = b.pceMovecnt

omit k in
/-- Counting back, with what the record has for the destination. -/
theorem count_back (v : Vector (BitVec 32) 64) {src dst : Square} (h : src ≠ dst) :
    (((v.set dst.val (v.get src + 1)).set src.val 0#32).set src.val
      (((v.set dst.val (v.get src + 1)).set src.val 0#32).get dst - 1)).set dst.val (v.get dst) =
      v := by
  have hne : src.val ≠ dst.val := fun e => h (Fin.ext e)
  have hcount : ((v.set dst.val (v.get src + 1)).set src.val 0#32).get dst - 1 = v.get src := by
    show ((v.set dst.val (v.get src + 1)).set src.val 0#32)[dst.val] - 1 = _
    rw [Vector.getElem_set_ne _ _ hne, Vector.getElem_set_self]
    exact BitVec.add_sub_cancel _ _
  rw [hcount]
  refine Vector.ext fun i hi => ?_
  by_cases hd : dst.val = i
  · subst hd
    rw [Vector.getElem_set_self]
    rfl
  · rw [Vector.getElem_set_ne _ _ hd]
    by_cases hs : src.val = i
    · subst hs
      rw [Vector.getElem_set_self]
      rfl
    · rw [Vector.getElem_set_ne _ _ hs, Vector.getElem_set_ne _ _ hs, Vector.getElem_set_ne _ _ hd]

theorem pceMovecnt_restoreCounters {mov : Move} (hm : b'.pceMovecnt = b.pceMovecnt)
    (hmov : mov.isNull = false → mov.fromSq ≠ mov.toSq) :
    ((b'.updateCounters mov).restoreCounters (b.history mov)).pceMovecnt = b.pceMovecnt := by
  have hupd : (b'.updateCounters mov).pceMovecnt = if mov.isNull then b.pceMovecnt else
      (b.pceMovecnt.set mov.toSq.val (b.pceMovecnt.get mov.fromSq + 1)).set mov.fromSq.val 0#32 := by
    rw [← hm]
    rfl
  have hres : ((b'.updateCounters mov).restoreCounters (b.history mov)).pceMovecnt =
      if mov.isNull then (b'.updateCounters mov).pceMovecnt else
        ((b'.updateCounters mov).pceMovecnt.set mov.fromSq.val
          ((b'.updateCounters mov).pceMovecnt.get mov.toSq - 1)).set mov.toSq.val
            (if mov.isNull then 0#32 else b.pceMovecnt.get mov.toSq) := rfl
  rw [hres, hupd]
  cases hn : mov.isNull with
  | true => rfl
  | false => exact count_back b.pceMovecnt (hmov hn)

/-- **The record brings back all that is not the men.** -/
theorem back_restored (b : Board) {mov : Move} (hmov : mov.isNull = false → mov.fromSq ≠ mov.toSq) :
    Back b ((b.makeMove mov).restored (b.history mov)) := by
  obtain ⟨b', hc, -, hf, hside, hmake⟩ := makeMove_rest b mov
  rw [hmake]
  have hflags : Fewer b.flags
      (((b'.updateCounters mov).restoreCounters (b.history mov)).setEpsq b.epsq).flags := hf
  obtain ⟨hp, hcounts, hep⟩ := restoreFlags_same
    (((b'.updateCounters mov).restoreCounters (b.history mov)).setEpsq b.epsq) b.flags
  refine ⟨hp.side.trans ?_, hcounts.moveno.trans ?_, hcounts.movecnt50.trans rfl,
    flags_restoreFlags hflags, hep.trans rfl, hcounts.pceMovecnt.trans ?_⟩
  · show b'.side.xside.xside = b.side
    rw [xside_xside, hside]
  · have hm : b'.moveno = b.moveno := hc.moveno
    show (if b'.side.xside = .white then
      (if b'.side.xside = .white then b'.moveno + 1 else b'.moveno) - 1
      else if b'.side.xside = .white then b'.moveno + 1 else b'.moveno) = b.moveno
    rw [hm]
    split <;> omega
  · exact pceMovecnt_restoreCounters hc.pceMovecnt hmov

end Counters

/-! ## The men come back -/

namespace Rules.Ply

/-- The piece operations that take a move back. -/
def unops (c : Color) (eppawn : Option Square) : Ply → List PieceOp
  | move src dst p cap => .move dst src c p :: (cap.map (.place dst c.xside)).toList
  | promote src dst p cap =>
    .remove dst c p :: ((cap.map (.place dst c.xside)).toList ++ [.place src c .pawn])
  | enpassant src dst =>
    .move dst src c .pawn :: (eppawn.map (fun sq => .place sq c.xside .pawn)).toList
  | castle f => [.move f.kingDest f.kingHome c .king, .move f.transit f.rookHome c .rook]

end Rules.Ply

theorem uncastleRookOp_kingDest (c : Color) (f : CastleFlag) :
    Board.uncastleRookOp c f.kingDest = [.move f.transit f.rookHome c .rook] := by
  cases f <;> rfl

/-- **The branches of `unmake_move` for an encoded move.** -/
theorem unmoveOps_encode (b : Board) (ply : Ply) :
    b.unmoveOps ply.encode = ply.unops b.side b.getEppawn := by
  unfold Board.unmoveOps
  simp only [Ply.isCapture_encode, Ply.isPromotion_encode, Ply.isNormal_encode,
    Ply.isCastle_encode, Ply.isEnpassant_encode, Ply.fromSq_encode, Ply.toSq_encode,
    Ply.capPtype_encode, Ply.promoteTo_encode, Ply.ptype_encode]
  cases ply with
  | move src dst p cap => cases cap <;> rfl
  | promote src dst p cap => cases cap <;> rfl
  | enpassant src dst => rfl
  | castle f =>
    simp [Ply.isCastling, Ply.src, Ply.dst, uncastleRookOp_kingDest, Ply.unops]

section Men

variable [k : Build] {b : Board} {pos : Position}

omit k in
theorem move_back {man : Placement} {src dst : Square} {c : Color} {p q : Piece} {cap : Option Man}
    (hsrc : man src = some (c, p)) (hdst : man dst = cap) (hne : src ≠ dst) :
    Function.update (Function.update (Function.update (Function.update man src none) dst
      (some (c, q))) dst cap) src (some (c, p)) = man := by
  rw [Function.update_idem, Function.update_comm hne, Function.update_idem, ← hdst,
    Function.update_eq_self, ← hsrc, Function.update_eq_self]

/-- The operations find the men as they assert, and lead back to the old placement. -/
def LeadsBack (man' man : Placement) (ops : List PieceOp) : Prop :=
  OpsOkAt man' ops ∧ ops.foldl PieceOp.apply man' = man

omit k in
theorem unops_move {src dst : Square} {p : Piece} {cap : Option Piece}
    (h : pos.Carries src dst p cap) (hne : src ≠ dst) (ep : Option Square) :
    LeadsBack (pos.placement (.move src dst p cap)) pos.man
      (Ply.unops pos.side ep (.move src dst p cap)) := by
  obtain ⟨hsrc, hdst, -⟩ := h
  have hback := move_back (q := p) hsrc hdst hne
  have hfrom : pos.placement (.move src dst p cap) src = none := by
    show (Function.update (Function.update pos.man src none) dst _ : Placement) src = none
    rw [Function.update_of_ne hne, Function.update_self]
  have hto : pos.placement (.move src dst p cap) dst = some (pos.side, p) := Function.update_self ..
  cases cap with
  | none => exact ⟨⟨⟨hto, hfrom⟩, trivial⟩, hback⟩
  | some q =>
    refine ⟨⟨⟨hto, hfrom⟩, ?_, trivial⟩, ?_⟩
    · show (Function.update (Function.update (pos.placement _) dst none) src _ : Placement) dst = none
      rw [Function.update_of_ne hne.symm, Function.update_self]
    · show Function.update (Function.update (Function.update _ dst none) src _) dst _ = pos.man
      rw [Function.update_comm hne, Function.update_idem]
      exact hback

omit k in
theorem unops_promote {src dst : Square} {p : Piece} {cap : Option Piece}
    (h : pos.Carries src dst .pawn cap) (hne : src ≠ dst) (ep : Option Square) :
    LeadsBack (pos.placement (.promote src dst p cap)) pos.man
      (Ply.unops pos.side ep (.promote src dst p cap)) := by
  obtain ⟨hsrc, hdst, -⟩ := h
  have hback := move_back (q := p) hsrc hdst hne
  have hfrom : pos.placement (.promote src dst p cap) src = none := by
    show (Function.update (Function.update pos.man src none) dst _ : Placement) src = none
    rw [Function.update_of_ne hne, Function.update_self]
  have hto : pos.placement (.promote src dst p cap) dst = some (pos.side, p) :=
    Function.update_self ..
  cases cap with
  | none =>
    refine ⟨⟨hto, ?_, trivial⟩, hback⟩
    show (Function.update (pos.placement _) dst none : Placement) src = none
    rw [Function.update_of_ne hne, hfrom]
  | some q =>
    refine ⟨⟨hto, Function.update_self .., ?_, trivial⟩, ?_⟩
    · show (Function.update (Function.update (pos.placement _) dst none) dst _ : Placement) src = none
      rw [Function.update_of_ne hne, Function.update_of_ne hne, hfrom]
    · show Function.update (Function.update (Function.update _ dst none) dst _) src _ = pos.man
      rw [Function.update_idem]
      exact hback

theorem unops_enpassant (h : Sim b pos) (hs : Sane pos) {src dst : Square}
    (hp : pos.Pseudo (.enpassant src dst)) :
    LeadsBack (pos.placement (.enpassant src dst)) pos.man
      (Ply.unops pos.side b.getEppawn (.enpassant src dst)) := by
  have hne : src ≠ dst := hp.src_ne_dst
  obtain ⟨hsrc, h2, h3⟩ := hp
  have hv := hs.victim h2 h3
  have hdst := (hs.ep dst h2).empty
  rw [h.getEppawn hs h2 h3]
  have hvd : epVictim src dst ≠ dst := by rintro e; rw [e, hdst] at hv; cases hv
  have hvs : epVictim src dst ≠ src := by
    rintro e
    rw [e, hsrc] at hv
    exact ne_xside pos.side (congrArg Prod.fst (Option.some.inj hv))
  have hback := move_back (q := .pawn) hsrc hdst hne
  show LeadsBack (Function.update (Function.update (Function.update pos.man src none) dst
      (some (pos.side, .pawn))) (epVictim src dst) none) pos.man
    [.move dst src pos.side .pawn, .place (epVictim src dst) pos.side.xside .pawn]
  generalize epVictim src dst = v at *
  refine ⟨⟨⟨?_, ?_⟩, ?_, trivial⟩, ?_⟩
  · rw [Function.update_of_ne hvd.symm, Function.update_self]
  · rw [Function.update_of_ne hvs.symm, Function.update_of_ne hne, Function.update_self]
  · show (Function.update (Function.update _ dst none) src _ : Placement) v = none
    rw [Function.update_of_ne hvs, Function.update_of_ne hvd, Function.update_self]
  · show Function.update (Function.update (Function.update (Function.update _ v none) dst none)
      src _) v _ = pos.man
    rw [Function.update_comm hvd, Function.update_comm hvs, Function.update_idem, hback, ← hv,
      Function.update_eq_self]

omit k in
theorem unops_castle {f : CastleFlag} (hp : pos.Pseudo (.castle f)) (ep : Option Square) :
    LeadsBack (pos.placement (.castle f)) pos.man (Ply.unops pos.side ep (.castle f)) := by
  obtain ⟨_, _, hking, hrook, hfree, _⟩ := hp
  have hdest : pos.man f.kingDest = none := hfree _ (between_kingDest f)
  have htrans : pos.man f.transit = none := hfree _ (between_transit f)
  have hd : f.kingHome ≠ f.kingDest ∧ f.rookHome ≠ f.transit ∧ f.kingDest ≠ f.rookHome ∧
      f.kingHome ≠ f.rookHome ∧ f.kingDest ≠ f.transit ∧ f.kingHome ≠ f.transit := by
    cases f <;> decide
  obtain ⟨d1, d2, d3, d4, d5, d6⟩ := hd
  have hbackK := move_back (q := .king) hking hdest d1
  have hbackR := move_back (q := .rook) hrook htrans d2
  show LeadsBack (Function.update (Function.update (Function.update (Function.update pos.man
      f.kingHome none) f.kingDest (some (pos.side, .king))) f.rookHome none) f.transit
      (some (pos.side, .rook))) pos.man
    [.move f.kingDest f.kingHome pos.side .king, .move f.transit f.rookHome pos.side .rook]
  generalize f.kingHome = kh at *
  generalize f.kingDest = kd at *
  generalize f.rookHome = rh at *
  generalize f.transit = rt at *
  refine ⟨⟨⟨?_, ?_⟩, ⟨?_, ?_⟩, trivial⟩, ?_⟩
  · rw [Function.update_of_ne d5, Function.update_of_ne d3, Function.update_self]
  · rw [Function.update_of_ne d6, Function.update_of_ne d4, Function.update_of_ne d1,
      Function.update_self]
  · show (Function.update (Function.update _ kd none) kh _ : Placement) rt = _
    rw [Function.update_of_ne d6.symm, Function.update_of_ne d5.symm, Function.update_self]
  · show (Function.update (Function.update _ kd none) kh _ : Placement) rh = none
    rw [Function.update_of_ne d4.symm, Function.update_of_ne d3.symm, Function.update_of_ne d2,
      Function.update_self]
  · show Function.update (Function.update (Function.update (Function.update (Function.update
      (Function.update _ rh none) rt _) kd none) kh _) rt none) rh _ = pos.man
    rw [Function.update_comm d5.symm, Function.update_comm d3.symm, Function.update_comm d6.symm,
      Function.update_comm d4.symm, hbackK]
    exact hbackR

/-- **The operations of `unmake_move` lead back.** -/
theorem Sim.unops (h : Sim b pos) (hs : Sane pos) {ply : Ply} (hp : pos.Pseudo ply) :
    LeadsBack (pos.placement ply) pos.man (ply.unops pos.side b.getEppawn) := by
  have hne := hp.src_ne_dst
  cases ply with
  | move src dst p cap => exact unops_move hp.1 hne _
  | promote src dst p cap => exact unops_promote hp.1 hne _
  | enpassant src dst => exact unops_enpassant h hs hp
  | castle f => exact unops_castle hp _

end Men

/-! ## The board comes back -/

section Undo

variable [k : Build] {b : Board} {pos : Position} {man man' : Placement}

theorem consistent_restored (h : Consistent b man) (hist : BoardHistory) :
    Consistent (b.restored hist) man := by
  have hite : ∀ {b' : Board} (f : CastleFlag), Consistent b' man →
      Consistent (b'.restoreFlag hist.flags f) man := by
    intro b' f h'
    unfold Board.restoreFlag
    split
    · exact h'.setFlag f
    · exact h'
  have h1 : Consistent (b.restoreCounters hist) man := h.switchSides.withCounters _ _ _
  exact hite .bq (hite .bk (hite .wq (hite .wk (h1.setEpsq hist.epsq))))

omit k in
theorem clearCastled_same (b : Board) (mov : Move) :
    Back b (b.clearCastled mov) ∧ (b.clearCastled mov).king = b.king := by
  unfold Board.clearCastled
  split <;> exact ⟨⟨rfl, rfl, rfl, rfl, rfl, rfl⟩, rfl⟩

theorem Consistent.clearCastled (h : Consistent b man) (mov : Move) :
    Consistent (b.clearCastled mov) man := by
  unfold Board.clearCastled
  split
  · exact ⟨h.pos, h.all, h.rot, h.king, h.material, h.hash, h.pawnhash⟩
  · exact h

/-- The square of the king that moves goes back with it. -/
theorem king_runOps_unops (b : Board) {ply : Ply} (c : Color) (ep : Option Square)
    (hcap : ply.captured ≠ some .king) (hpl : ply.placed = .king → ply.piece = .king) :
    (b.runOps (ply.unops c ep)).king =
      if ply.piece = .king then b.king.set c (some ply.src) else b.king := by
  cases ply with
  | move src dst p cap =>
    cases cap with
    | none => rfl
    | some q =>
      have hq : q ≠ .king := fun e => hcap (by rw [e]; rfl)
      simp only [Board.runOps, Ply.unops, Option.map_some, Option.toList_some, List.foldl_cons,
        List.foldl_nil, PieceOp.exec, Board.movePiece, Board.placePiece, if_neg hq]
      rfl
  | promote src dst p cap =>
    have hp : p ≠ .king := fun e => by cases hpl e
    cases cap with
    | none =>
      simp [Board.runOps, Ply.unops, PieceOp.exec, Board.placePiece, Board.removePiece, hp,
        Ply.piece]
    | some q =>
      have hq : q ≠ .king := fun e => hcap (by rw [e]; rfl)
      simp [Board.runOps, Ply.unops, PieceOp.exec, Board.placePiece, Board.removePiece, hp, hq,
        Ply.piece]
  | enpassant src dst =>
    cases ep <;>
      simp [Board.runOps, Ply.unops, PieceOp.exec, Board.movePiece, Board.placePiece, Ply.piece]
  | castle f =>
    simp [Board.runOps, Ply.unops, PieceOp.exec, Board.movePiece, Ply.piece, Ply.src]

theorem restored_king (b : Board) (hist : BoardHistory) : (b.restored hist).king = b.king :=
  (restoreFlags_same _ _).1.king

theorem restored_hasCastled (b : Board) (hist : BoardHistory) :
    (b.restored hist).hasCastled = b.hasCastled :=
  (restoreFlags_same _ _).2.1.hasCastled

theorem makeMove_hasCastled (b : Board) (ply : Ply) : (b.makeMove ply.encode).hasCastled =
    if ply.isCastling then b.hasCastled.set b.side true else b.hasCastled := by
  obtain ⟨b', -, hc, -, -, hmake⟩ := makeMove_rest b ply.encode
  have hr := (sameCounts_runOps b (b.moveOps ply.encode)).hasCastled
  have hs := (sameState_runOps b (b.moveOps ply.encode)).side
  rw [hmake]
  show b'.hasCastled = _
  rw [hc, Board.setCastled, Ply.isCapture_encode, Ply.isNormal_encode, Ply.isCastle_encode]
  cases ply with
  | castle f =>
    show (b.runOps _).hasCastled.set (b.runOps _).side true = _
    rw [hr, hs]
    rfl
  | _ => simpa [Ply.isCastling] using hr

theorem back_makeMove (b : Board) {ply : Ply} (hp : pos.Pseudo ply) :
    Back b ((b.makeMove ply.encode).restored (b.history ply.encode)) := by
  refine back_restored b fun _ => ?_
  rw [Ply.fromSq_encode, Ply.toSq_encode]
  exact hp.src_ne_dst

/-- **`unmake_move` brings the old board back**, as far as castling is recorded. -/
theorem Sim.unmakeMove_makeMove (h : Sim b pos) (hs : Sane pos) {ply : Ply} (hp : pos.Pseudo ply)
    (hc : ply.isCastling = true → b.hasCastled.get b.side = false) :
    (b.makeMove ply.encode).unmakeMove (b.history ply.encode) = b := by
  have hback := back_makeMove b hp
  have hcon := consistent_restored (h.makeMove hs hp).consistent (b.history ply.encode)
  have hking := restored_king (b.makeMove ply.encode) (b.history ply.encode)
  have hcast := restored_hasCastled (b.makeMove ply.encode) (b.history ply.encode)
  show Board.clearCastled (Board.runOps _ _) ply.encode = b
  generalize (b.makeMove ply.encode).restored (b.history ply.encode) = r at *
  have hep : r.getEppawn = b.getEppawn := by rw [Board.getEppawn, Board.getEppawn, hback.epsq]
  have hops : r.unmoveOps (b.history ply.encode).move = ply.unops pos.side b.getEppawn := by
    show r.unmoveOps ply.encode = _
    rw [unmoveOps_encode, hep, hback.side, h.side]
  rw [hops]
  obtain ⟨hok, hfold⟩ := h.unops hs hp
  have hmen := hcon.runOps hok
  rw [show List.foldl PieceOp.apply (pos.apply ply).man _ = pos.man from hfold] at hmen
  have hstate := sameState_runOps r (ply.unops pos.side b.getEppawn)
  have hcounts := sameCounts_runOps r (ply.unops pos.side b.getEppawn)
  have hkings := king_runOps_unops r pos.side b.getEppawn (captured_ne_king hs hp)
    (fun e => hp.placed_eq_king.mp e)
  generalize r.runOps (ply.unops pos.side b.getEppawn) = u at *
  obtain ⟨hu, huking⟩ := clearCastled_same u ply.encode
  refine h.consistent.eq_of_sameRest (hmen.clearCastled ply.encode)
    ⟨hu.side.trans (hstate.side.trans hback.side), hu.moveno.trans (hcounts.moveno.trans hback.moveno),
      hu.movecnt50.trans (hcounts.movecnt50.trans hback.movecnt50), huking.trans (hkings.trans ?_),
      hu.flags.trans (hstate.flags.trans hback.flags), hu.epsq.trans (hstate.epsq.trans hback.epsq),
      ?_, hu.pceMovecnt.trans (hcounts.pceMovecnt.trans hback.pceMovecnt)⟩
  · have hmade : (b.makeMove ply.encode).king =
        if ply.piece = .king then b.king.set pos.side (some ply.dst) else b.king := by
      rw [makeMove_king, moveOps_encode, h.side]
      exact king_runOps_ops b _ _ (captured_ne_king hs hp) (fun e => hp.placed_eq_king.mp e)
    rw [hking, hmade]
    by_cases hk : ply.piece = .king
    · have hsrc : b.king.get pos.side = some ply.src := by
        refine h.king pos.side ply.src ?_
        rw [hp.man_src, hk]
      rw [if_pos hk, if_pos hk, PerColor.set_set, ← hsrc, PerColor.set_get]
    · rw [if_neg hk, if_neg hk]
  · have huc : u.hasCastled = if ply.isCastling then b.hasCastled.set b.side true else b.hasCastled :=
      hcounts.hasCastled.trans (hcast.trans (makeMove_hasCastled b ply))
    have hus : u.side = b.side := hstate.side.trans hback.side
    unfold Board.clearCastled
    rw [Ply.isCastle_encode]
    cases hcas : ply.isCastling with
    | false =>
      rw [hcas] at huc
      exact huc
    | true =>
      rw [hcas] at huc
      show u.hasCastled.set u.side false = b.hasCastled
      rw [huc, hus, if_pos rfl, PerColor.set_set, ← hc hcas, PerColor.set_get]

omit k in
theorem unmoveOps_null (b : Board) : b.unmoveOps .null = [] := rfl

/-- A null move is taken back as well. -/
theorem Consistent.unmakeMove_null (h : Consistent b man) :
    (b.makeMove .null).unmakeMove (b.history .null) = b := by
  have hback : Back b ((b.makeMove .null).restored (b.history .null)) :=
    back_restored b (by decide)
  have hcon := consistent_restored (h.makeMove .null (by trivial)) (b.history .null)
  have hking := restored_king (b.makeMove .null) (b.history .null)
  have hcast := restored_hasCastled (b.makeMove .null) (b.history .null)
  have hclear : ∀ b : Board, b.clearCastled .null = b := fun b => if_neg (by decide)
  show Board.clearCastled (Board.runOps _ (Board.unmoveOps _ .null)) .null = b
  rw [hclear, unmoveOps_null]
  exact h.eq_of_sameRest hcon ⟨hback.side, hback.moveno, hback.movecnt50, hking, hback.flags,
    hback.epsq, hcast, hback.pceMovecnt⟩

theorem Consistent.unmakeOk_null (h : Consistent b man) :
    (b.makeMove .null).UnmakeOk (b.history .null) where
  ops := by
    show Board.OpsOk _ (Board.unmoveOps _ .null)
    rw [unmoveOps_null]
    trivial
  castle hcas := absurd (show Move.isCastle .null = true from hcas) (by decide)
  enpassant hep := absurd (show Move.isEnpassant .null = true from hep) (by decide)
  oldboard := h.unmakeMove_null
  valid := by
    rw [h.unmakeMove_null]
    exact if_pos (show Move.isNull .null = true by decide)

/-! ## Searching on a single board -/

/-- A side that has castled has no castling rights left. -/
def Board.CastledOnce (b : Board) : Prop :=
  ∀ f : CastleFlag, b.hasFlag f = true → b.hasCastled.get f.color = false

theorem Board.CastledOnce.makeMove (h : b.CastledOnce) (hsim : Sim b pos) (hs : Sane pos) {ply : Ply}
    (hp : pos.Pseudo ply) : (b.makeMove ply.encode).CastledOnce := by
  intro f hf
  have hright : (pos.apply ply).right f = true := by
    rw [← (hsim.makeMove hs hp).rights f, hf]
  obtain ⟨hr, hsrc⟩ : pos.right f = true ∧ ply.touches f.kingHome = false := by
    have h : (pos.right f && !ply.touches f.kingHome && !ply.touches f.rookHome) = true := hright
    simp only [Bool.and_eq_true, Bool.not_eq_true'] at h
    exact ⟨h.1.1, h.1.2⟩
  have hold : b.hasCastled.get f.color = false := h f (by rw [hsim.rights f, hr])
  rw [makeMove_hasCastled]
  cases ply with
  | castle g =>
    have hcol : f.color ≠ b.side := by
      rintro e
      have hg : g.kingHome = f.kingHome := by
        rw [CastleFlag.kingHome, CastleFlag.kingHome, hp.1, e, hsim.side]
      rw [← hg] at hsrc
      simp [Ply.touches, Ply.src] at hsrc
    show (b.hasCastled.set b.side true).get f.color = false
    rw [PerColor.get_set, if_neg (Ne.symm hcol)]
    exact hold
  | _ => exact hold

theorem Board.CastledOnce.makeNull (h : b.CastledOnce) : (b.makeMove .null).CastledOnce := h

/-- Nobody has castled on a board that was just read. -/
theorem hasCastled_setFields {f : FenFields} {b' : Board} (h : b.setFields f = some b') :
    b'.hasCastled = b.hasCastled := by
  have hflags : ∀ {cs : List Char} {b b' : Board}, b.flagLoop cs = some b' →
      b'.hasCastled = b.hasCastled := by
    intro cs
    induction cs with
    | nil =>
      intro b b' h
      cases h
      rfl
    | cons c cs ih =>
      intro b b' h
      have hset : ∀ fl, (b.setFlag fl).hasCastled = b.hasCastled :=
        fun fl => (sameCounts_setFlag b fl).hasCastled
      rw [Board.flagLoop] at h
      repeat' split at h
      all_goals first
        | exact (ih h).trans (hset _)
        | exact ih h
        | cases h
  have hep : ∀ {ep : List Char} {b b' : Board}, b.setEpField ep = some b' →
      b'.hasCastled = b.hasCastled := by
    intro ep b b' h
    unfold Board.setEpField at h
    simp only at h
    repeat' split at h
    all_goals
      cases h
      try rfl
  obtain ⟨c, _, h⟩ := Option.bind_eq_some_iff.mp h
  obtain ⟨b1, hb1, h⟩ := Option.bind_eq_some_iff.mp h
  obtain ⟨b2, hb2, h⟩ := Option.bind_eq_some_iff.mp h
  cases h
  refine (hep hb2).trans ((hflags hb1).trans ?_)
  unfold Board.setSide
  split <;> rfl

theorem castledOnce_of_accepted {s : String} (h : Board.parseFen s = .accepted b) :
    b.CastledOnce := by
  obtain ⟨f, b0, -, hplace, hfields, -⟩ := steps_of_accepted h
  have hfresh := (placeAll_frame hplace ⟨rfl, rfl⟩).1.hasCastled
  intro fl _
  rw [hasCastled_setFields hfields, hfresh, PerColor.get_both]

/-- **What `unmake_move` asserts holds** after a move of a game. -/
theorem Sim.unmakeOk (h : Sim b pos) (hs : Sane pos) (hc : b.CastledOnce) {ply : Ply}
    (hp : pos.Pseudo ply) : (b.makeMove ply.encode).UnmakeOk (b.history ply.encode) := by
  have hback := back_makeMove b hp
  have hcon := consistent_restored (h.makeMove hs hp).consistent (b.history ply.encode)
  have hep : ((b.makeMove ply.encode).restored (b.history ply.encode)).getEppawn = b.getEppawn := by
    rw [Board.getEppawn, Board.getEppawn, hback.epsq]
  have hundo := h.unmakeMove_makeMove hs hp fun hcas => by
    cases ply with
    | castle f =>
      have hf := hc f (by rw [h.rights f, hp.2.1])
      rwa [hp.1, ← h.side] at hf
    | _ => cases hcas
  refine ⟨?_, fun hcas => ?_, fun he => ?_, hundo, ?_⟩
  · rw [opsOk_iff hcon]
    show OpsOkAt _ (Board.unmoveOps _ ply.encode)
    rw [unmoveOps_encode, hep, hback.side, h.side]
    exact (h.unops hs hp).1
  · have hcas' : ply.isCastling = true := by rwa [← Ply.isCastle_encode]
    cases ply with
    | castle f =>
      refine ⟨f, Ply.toSq_encode (.castle f), ?_, ?_⟩
      · rw [hback.side, h.side, hp.1]
      · rw [Board.hasFlag, hback.flags]
        exact (h.rights f).trans hp.2.1
    | _ => cases hcas'
  · have he' : ply.isEp = true := by rwa [← Ply.isEnpassant_encode]
    cases ply with
    | enpassant src dst =>
      rw [hback.epsq, h.ep, hp.2.1]
      exact congrArg some (Ply.toSq_encode (.enpassant src dst)).symm
    | _ => cases he'
  · rw [hundo]
    obtain ⟨fac, hfac, hallowed⟩ : ∃ fac : Factory, fac.ply = some ply ∧ fac.Allowed pos.side := by
      cases ply with
      | move src dst p cap =>
        cases cap with
        | none => exact ⟨.normal src dst (some p), rfl, trivial⟩
        | some q => exact ⟨.capture src dst (some p) (some q), rfl, trivial⟩
      | promote src dst p cap =>
        cases cap with
        | none => exact ⟨.promotion src dst (some p), rfl, trivial⟩
        | some q => exact ⟨.promotionCapture src dst (some p) (some q), rfl, trivial⟩
      | enpassant src dst => exact ⟨.enpassant src dst, rfl, trivial⟩
      | castle f =>
        refine ⟨.castle f.kingHome f, if_pos rfl, ?_, hp.1⟩
        cases f
        · exact .inl rfl
        · exact .inl rfl
        · exact .inr rfl
        · exact .inr rfl
    show b.isValidMove ply.encode = true
    rw [← Factory.ply_encode hfac, h.isValidMove_word hs fac hallowed]
    exact Factory.accepted_of_ply hfac hp

/-- `make_move` and `unmake_move`, with what the latter asserts. -/
def boardGame : Undo.Game Board Move BoardHistory where
  make := Board.makeMove
  record := Board.history
  unmake := Board.unmakeMove
  Ok := Board.UnmakeOk

/-- The moves of a search: listed legal ones, and a null move when not in check. -/
def Searched (b : Board) (mov : Move) : Prop :=
  mov ∈ b.legalMoves.moves ∨ mov = .null ∧ b.inCheck = false

theorem castledOnce_of_reached (h : ReachedWithNull b) : b.CastledOnce := by
  induction h with
  | opening h => exact castledOnce_of_accepted h
  | move h hm ih =>
    obtain ⟨pos, hsim, hs⟩ := h.sim
    obtain ⟨ply, rfl, hl⟩ := hsim.of_mem_filterIllegal hs hm
    exact ih.makeMove hsim hs hl.1
  | null _ _ ih => exact ih.makeNull

/-- **A search on a single board sees what a search on copies sees**, and no assertion of
`unmake_move` fails. -/
theorem singleBoard_agrees (h : ReachedWithNull b) {as : List (Undo.Act Move)}
    (has : Run.Along (Undo.copyStep boardGame) (Undo.Admits Searched) (b, []) as) :
    (Run.run (Undo.placeStep boardGame) (b, []) as).1 =
        (Run.run (Undo.copyStep boardGame) (b, []) as).1 ∧
      Run.Along (Undo.placeStep boardGame) (Undo.Asserts boardGame) (b, []) as := by
  refine Undo.inPlace_agrees (P := fun b => ReachedWithNull b ∧ b.CastledOnce)
    (fun b mov hb hmov => ?_) (fun b mov hb hmov => ?_) ⟨h, castledOnce_of_reached h⟩
    (List.forall_mem_nil _) trivial has
  · rcases hmov with hmov | ⟨rfl, hcheck⟩
    · have hr : ReachedWithNull (b.makeMove mov) := .move hb.1 hmov
      exact ⟨hr, castledOnce_of_reached hr⟩
    · have hr : ReachedWithNull (b.makeMove .null) := .null hb.1 hcheck
      exact ⟨hr, castledOnce_of_reached hr⟩
  · obtain ⟨pos, hsim, hs⟩ := hb.1.sim
    rcases hmov with hmov | ⟨rfl, hcheck⟩
    · obtain ⟨ply, rfl, hl⟩ := hsim.of_mem_filterIllegal hs hmov
      have hok := hsim.unmakeOk hs hb.2 hl.1
      exact ⟨hok, hok.oldboard⟩
    · exact ⟨hsim.consistent.unmakeOk_null, hsim.consistent.unmakeMove_null⟩

omit k in
/-- 1. e4 d5, and White takes the pawn and takes that back. -/
theorem singleBoard_agrees_capture :
    let _ := sampleBuild
    ∃ b, Reached b ∧ ∃ mov ∈ b.legalMoves.moves, mov.isCapture = true ∧
      (Run.run (Undo.placeStep boardGame) (b, []) [.make mov, .unmake]).1 = b := by
  intro _
  obtain ⟨b, hb, hsim, hp⟩ :=
    reached_line (l := [.move 12 28 .pawn none, .move 51 35 .pawn none]) (by decide +kernel)
  have hmem : (Ply.move 28 35 .pawn (some .pawn)).encode ∈ b.legalMoves.moves :=
    (hsim.mem_legalMoves hp.sane hp.materialOk _).mpr ⟨_, rfl, by decide +kernel⟩
  have has : Run.Along (Undo.copyStep boardGame) (Undo.Admits Searched) (b, [])
      [.make (Ply.move 28 35 .pawn (some .pawn)).encode, .unmake] := ⟨.inl hmem, trivial, trivial⟩
  exact ⟨b, hb, _, hmem, by decide, (singleBoard_agrees hb.withNull has).1⟩

end Undo

end HoiChess.Chess
