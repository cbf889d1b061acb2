import HoiChess.Chess.Movelist
import HoiChess.Chess.Simulation

/-!
# Move generation

`generate_captures`, `generate_noncaptures`, `generate_castling` and
`generate_moves`.  The nested scanning loops append, in scanning order, the
words of a list of plies (`generateCaptures_eq`, `generateNoncaptures_eq`);
`mem_capturePlies` and `mem_noncapturePlies` say which plies these are on any
valid board, and on a sane one they are the pseudo-legal moves of the rules.
-/

namespace HoiChess.Chess

open WordSet Grid Rules

/-- `while (bb) { sq = bb.firstbit(); bb.clearbit(sq); body }` -/
def forSquares [Build] (bb : Bitboard) (body : Square → Movelist → Movelist) (ml : Movelist) :
    Movelist :=
  (squares bb).foldl (fun ml sq => body sq ml) ml

namespace Board

section Generators

variable [Build] (b : Board)

/-- The rank from which the pawns of a side promote. -/
def promotionRank : Color → Bitboard
  | .white => rankBb 6
  | .black => rankBb 1

/-- Queen and knight always, bishop and rook only with `allpromo`. -/
def addPromotions (mk : Piece → Move) (allpromo : Bool) (ml : Movelist) : Movelist :=
  let ml := (ml.add (mk .queen)).add (mk .knight)
  if allpromo then (ml.add (mk .bishop)).add (mk .rook) else ml

/-- The loops over the targets of one piece. -/
def addTargets (src : Square) (targets : Bitboard) (mk : Square → Square → Move) :
    Movelist → Movelist :=
  forSquares targets (fun dst ml => ml.add (mk src dst))

/-- The loop over all knights, bishops, rooks or queens of the side to move. -/
def pieceLoop (p : Piece) (mask : Bitboard) (mk : Square → Square → Move) :
    Movelist → Movelist :=
  forSquares (b.pos b.side p) (fun src => addTargets src (b.attacksOf p b.side src &&& mask) mk)

/-- The king, only one; its square is never `NO_SQUARE` on a valid board. -/
def kingMoves (mask : Bitboard) (mk : Square → Square → Move) (ml : Movelist) : Movelist :=
  match b.getKing b.side with
  | none => ml
  | some src => addTargets src (kingAttacks src &&& mask) mk ml

/-- Pawn promotions and promotion-captures. -/
def promotionLoop (allpromo : Bool) : Movelist → Movelist :=
  forSquares (b.pos b.side .pawn &&& promotionRank b.side) (fun src ml =>
    let ml := forSquares (b.pawnCaptures src b.side &&& b.getPieces b.side.xside) (fun dst =>
      addPromotions (fun p => .promotionCapture src dst (some p) (b.pieceAt dst)) allpromo) ml
    forSquares (b.pawnNoncaptures src b.side) (fun dst =>
      addPromotions (fun p => .promotion src dst (some p)) allpromo) ml)

def pawnCaptureLoop : Movelist → Movelist :=
  forSquares (b.pos b.side .pawn &&& ~~~promotionRank b.side) (fun src =>
    forSquares (b.pawnCaptures src b.side &&& ~~~b.getPieces b.side) (fun dst ml =>
      ml.add (if some dst = b.epsq then .enpassant src dst
        else .capture src dst (some .pawn) (b.pieceAt dst))))

/-- Pawn non-captures non-promotions. -/
def pushLoop : Movelist → Movelist :=
  forSquares (b.pos b.side .pawn &&& ~~~promotionRank b.side) (fun src =>
    forSquares (b.pawnNoncaptures src b.side) (fun dst ml =>
      ml.add (.normal src dst (some .pawn))))

def generateCaptures (allpromo : Bool) (ml : Movelist) : Movelist :=
  let them := b.getPieces b.side.xside
  let capture := fun p src dst => Move.capture src dst (some p) (b.pieceAt dst)
  let ml := b.promotionLoop allpromo ml
  let ml := b.pawnCaptureLoop ml
  let ml := b.pieceLoop .knight them (capture .knight) ml
  let ml := b.pieceLoop .bishop them (capture .bishop) ml
  let ml := b.pieceLoop .rook them (capture .rook) ml
  let ml := b.pieceLoop .queen them (capture .queen) ml
  b.kingMoves them (capture .king) ml

/-- The condition of one castling move. -/
def mayCastle (f : CastleFlag) : Bool :=
  b.hasFlag f && !Bitboard.any (b.occupied &&& rayBb f.kingHome f.rookHome) &&
    !b.isAttacked f.transit b.side.xside

def addCastle (f : CastleFlag) (ml : Movelist) : Movelist :=
  if b.mayCastle f then ml.add (.castle f.kingHome f.kingDest) else ml

/-- Castling into check is listed, castling out of or through check is not. -/
def generateCastling (ml : Movelist) : Movelist :=
  if b.inCheck then ml
  else if b.side = .white then b.addCastle .wq (b.addCastle .wk ml)
  else b.addCastle .bq (b.addCastle .bk ml)

def generateNoncaptures (ml : Movelist) : Movelist :=
  let free := ~~~b.occupied
  let normal := fun p src dst => Move.normal src dst (some p)
  let ml := b.generateCastling ml
  let ml := b.pushLoop ml
  let ml := b.pieceLoop .knight free (normal .knight) ml
  let ml := b.pieceLoop .bishop free (normal .bishop) ml
  let ml := b.pieceLoop .rook free (normal .rook) ml
  let ml := b.pieceLoop .queen free (normal .queen) ml
  b.kingMoves free (normal .king) ml

def generateMoves (allpromo : Bool) (ml : Movelist) : Movelist :=
  b.generateNoncaptures (b.generateCaptures allpromo ml)

/-- `is_legal_move`: the king is not left in check. -/
def isLegalMove (mov : Move) : Bool := (b.makeMove mov).isLegal

/-- `Movelist::filter_illegal` -/
def filterIllegal (ml : Movelist) : Movelist := ml.filterBy b.isLegalMove

/-- `generate_moves` into an empty list, followed by `filter_illegal`. -/
def legalMoves : Movelist := b.filterIllegal (b.generateMoves true .empty)

/-- `is_mate()` -/
def isMate : Bool := b.inCheck && b.legalMoves.size = 0

/-- `is_stalemate()` -/
def isStalemate : Bool := !b.inCheck && b.legalMoves.size = 0

end Generators

/-! ## The plies behind the loops -/

section Plies

variable [Build] (b : Board)

def promotionChoice (allpromo : Bool) : List Piece :=
  if allpromo then [.queen, .knight, .bishop, .rook] else [.queen, .knight]

def promotionPlies (allpromo : Bool) : List Ply :=
  (squares (b.pos b.side .pawn &&& promotionRank b.side)).flatMap fun src =>
    (squares (b.pawnCaptures src b.side &&& b.getPieces b.side.xside)).flatMap (fun dst =>
      (promotionChoice allpromo).map (fun p => .promote src dst p (b.pieceAt dst))) ++
    (squares (b.pawnNoncaptures src b.side)).flatMap (fun dst =>
      (promotionChoice allpromo).map (fun p => .promote src dst p none))

def pawnCapturePlies : List Ply :=
  (squares (b.pos b.side .pawn &&& ~~~promotionRank b.side)).flatMap fun src =>
    (squares (b.pawnCaptures src b.side &&& ~~~b.getPieces b.side)).map fun dst =>
      if some dst = b.epsq then .enpassant src dst else .move src dst .pawn (b.pieceAt dst)

def pushPlies : List Ply :=
  (squares (b.pos b.side .pawn &&& ~~~promotionRank b.side)).flatMap fun src =>
    (squares (b.pawnNoncaptures src b.side)).map fun dst => .move src dst .pawn none

/-- The squares from which the pieces of a kind are moved. -/
def movers (p : Piece) : List Square :=
  if p = .king then (b.getKing b.side).toList else squares (b.pos b.side p)

def piecePlies (mask : Bitboard) (cap : Square → Option Piece) (p : Piece) : List Ply :=
  (b.movers p).flatMap fun src =>
    (squares (b.attacksOf p b.side src &&& mask)).map fun dst => .move src dst p (cap dst)

def pieces : List Piece := [.knight, .bishop, .rook, .queen, .king]

def capturePlies (allpromo : Bool) : List Ply :=
  b.promotionPlies allpromo ++ b.pawnCapturePlies ++
    pieces.flatMap (b.piecePlies (b.getPieces b.side.xside) b.pieceAt)

def castlePlies : List Ply :=
  if b.inCheck then []
  else if b.side = .white then
    [CastleFlag.wk, .wq].flatMap (fun f => if b.mayCastle f then [.castle f] else [])
  else [CastleFlag.bk, .bq].flatMap (fun f => if b.mayCastle f then [.castle f] else [])

def noncapturePlies : List Ply :=
  b.castlePlies ++ b.pushPlies ++ pieces.flatMap (b.piecePlies (~~~b.occupied) (fun _ => none))

end Plies

end Board

/-! ## The loops append the plies -/

theorem addPromotions_eq (mk : Piece → Move) (f : Piece → Ply) (h : ∀ p, mk p = (f p).encode)
    (allpromo : Bool) (ml : Movelist) :
    Board.addPromotions mk allpromo ml =
      ml.addAll (((Board.promotionChoice allpromo).map f).map Ply.encode) := by
  cases allpromo <;> simp [Board.addPromotions, Board.promotionChoice, Movelist.addAll, h]

theorem generateCastling_eq (b : Board) (ml : Movelist) :
    b.generateCastling ml = ml.addAll (b.castlePlies.map Ply.encode) := by
  have hadd : ∀ f ml, b.addCastle f ml =
      ml.addAll ((if b.mayCastle f then [Ply.castle f] else []).map Ply.encode) := by
    intro f ml
    unfold Board.addCastle
    split <;> rfl
  unfold Board.generateCastling Board.castlePlies
  split
  · rfl
  · split <;> simp only [hadd, ← Movelist.addAll_append, List.flatMap_cons, List.flatMap_nil,
      List.append_nil, List.map_append]

section Loops

variable [Build]

theorem forSquares_eq {bb : Bitboard} {body : Square → Movelist → Movelist}
    {f : Square → List Move}
    (h : ∀ sq, mem bb sq = true → ∀ ml, body sq ml = ml.addAll (f sq)) (ml : Movelist) :
    forSquares bb body ml = ml.addAll ((squares bb).flatMap f) := by
  unfold forSquares
  have hmem : ∀ sq ∈ squares bb, ∀ ml, body sq ml = ml.addAll (f sq) :=
    fun sq hsq => h sq ((mem_squares bb sq).mp hsq)
  generalize squares bb = l at hmem
  induction l generalizing ml with
  | nil => rfl
  | cons sq l ih =>
    rw [List.foldl_cons, hmem sq List.mem_cons_self, List.flatMap_cons, Movelist.addAll_append]
    exact ih _ (fun s hs => hmem s (List.mem_cons_of_mem _ hs))

theorem forSquares_add {bb : Bitboard} {mk : Square → Move} {f : Square → Ply}
    (h : ∀ sq, mem bb sq = true → mk sq = (f sq).encode) (ml : Movelist) :
    forSquares bb (fun sq ml => ml.add (mk sq)) ml =
      ml.addAll (((squares bb).map f).map Ply.encode) := by
  rw [forSquares_eq (f := fun sq => [(f sq).encode])]
  · congr 1
    rw [List.map_map, List.map_eq_flatMap]
    rfl
  · intro sq hsq ml
    rw [h sq hsq]
    rfl

variable {b : Board} {man : Placement}

theorem pieceAt_of_mem (h : Consistent b man) {c : Color} {sq : Square}
    (hm : mem (b.getPieces c) sq = true) :
    ∃ q, b.pieceAt sq = some q ∧ man sq = some (c, q) := by
  obtain ⟨q, hq⟩ := (h.mem_all c sq).mp hm
  exact ⟨q, by rw [h.pieceAt_eq, hq]; rfl, hq⟩

theorem pieceLoop_eq {p : Piece} (hp : p ≠ .king) {mask : Bitboard}
    {mk : Square → Square → Move} {cap : Square → Option Piece}
    (h : ∀ src dst, mem mask dst = true → mk src dst = (Ply.move src dst p (cap dst)).encode)
    (ml : Movelist) :
    b.pieceLoop p mask mk ml = ml.addAll ((b.piecePlies mask cap p).map Ply.encode) := by
  unfold Board.pieceLoop
  rw [forSquares_eq (f := fun src => ((squares (b.attacksOf p b.side src &&& mask)).map
    (fun dst => Ply.move src dst p (cap dst))).map Ply.encode)]
  · rw [Board.piecePlies, Board.movers, if_neg hp, List.map_flatMap]
  · intro src _ ml
    apply forSquares_add
    intro dst hd
    rw [mem_and, Bool.and_eq_true] at hd
    exact h src dst hd.2

theorem kingMoves_eq {mask : Bitboard} {mk : Square → Square → Move}
    {cap : Square → Option Piece}
    (h : ∀ src dst, mem mask dst = true → mk src dst = (Ply.move src dst .king (cap dst)).encode)
    (ml : Movelist) :
    b.kingMoves mask mk ml = ml.addAll ((b.piecePlies mask cap .king).map Ply.encode) := by
  unfold Board.kingMoves Board.piecePlies Board.movers
  rw [if_pos rfl]
  cases b.getKing b.side with
  | none => rfl
  | some src =>
    simp only [Option.toList_some, List.flatMap_cons, List.flatMap_nil, List.append_nil]
    apply forSquares_add
    intro dst hd
    rw [mem_and, Bool.and_eq_true] at hd
    exact h src dst hd.2

/-- The five loops over the pieces other than pawns. -/
theorem pieceLoops_eq {mask : Bitboard} {m : Piece → Square → Square → Move}
    {c : Square → Option Piece}
    (h : ∀ p src dst, mem mask dst = true → m p src dst = (Ply.move src dst p (c dst)).encode)
    (ml : Movelist) :
    b.kingMoves mask (m .king) (b.pieceLoop .queen mask (m .queen)
      (b.pieceLoop .rook mask (m .rook) (b.pieceLoop .bishop mask (m .bishop)
        (b.pieceLoop .knight mask (m .knight) ml)))) =
      ml.addAll ((Board.pieces.flatMap (b.piecePlies mask c)).map Ply.encode) := by
  rw [pieceLoop_eq (by decide) (h .knight), pieceLoop_eq (by decide) (h .bishop),
    pieceLoop_eq (by decide) (h .rook), pieceLoop_eq (by decide) (h .queen), kingMoves_eq (h .king)]
  simp only [← Movelist.addAll_append, Board.pieces, List.flatMap_cons, List.flatMap_nil,
    List.append_nil, List.map_append, List.append_assoc]

theorem promotionLoop_eq (h : Consistent b man) (allpromo : Bool) (ml : Movelist) :
    b.promotionLoop allpromo ml = ml.addAll ((b.promotionPlies allpromo).map Ply.encode) := by
  unfold Board.promotionLoop Board.promotionPlies
  rw [List.map_flatMap]
  apply forSquares_eq
  intro src _ ml
  have hcap : ∀ ml, forSquares (b.pawnCaptures src b.side &&& b.getPieces b.side.xside)
      (fun dst => Board.addPromotions
        (fun p => .promotionCapture src dst (some p) (b.pieceAt dst)) allpromo) ml =
      ml.addAll (((squares (b.pawnCaptures src b.side &&& b.getPieces b.side.xside)).flatMap
        (fun dst => (Board.promotionChoice allpromo).map
          (fun p => Ply.promote src dst p (b.pieceAt dst)))).map Ply.encode) := by
    intro ml
    rw [List.map_flatMap]
    apply forSquares_eq
    intro dst hd ml
    rw [mem_and, Bool.and_eq_true] at hd
    obtain ⟨q, hq, _⟩ := pieceAt_of_mem h hd.2
    apply addPromotions_eq
    intro p
    rw [hq]
    rfl
  have hpush : ∀ ml, forSquares (b.pawnNoncaptures src b.side)
      (fun dst => Board.addPromotions (fun p => .promotion src dst (some p)) allpromo) ml =
      ml.addAll (((squares (b.pawnNoncaptures src b.side)).flatMap
        (fun dst => (Board.promotionChoice allpromo).map
          (fun p => Ply.promote src dst p none))).map Ply.encode) := by
    intro ml
    rw [List.map_flatMap]
    apply forSquares_eq
    intro dst _ ml
    exact addPromotions_eq _ (fun p => Ply.promote src dst p none) (fun p => rfl) _ _
  simp only
  rw [hcap, hpush, ← Movelist.addAll_append, List.map_append]

theorem pawnCaptureLoop_eq (h : Consistent b man) (ml : Movelist) :
    b.pawnCaptureLoop ml = ml.addAll (b.pawnCapturePlies.map Ply.encode) := by
  unfold Board.pawnCaptureLoop Board.pawnCapturePlies
  rw [List.map_flatMap]
  apply forSquares_eq
  intro src _ ml
  apply forSquares_add
  intro dst hd
  rw [mem_and, Bool.and_eq_true, mem_not, Bool.not_eq_true', mem_pawnCaptures h] at hd
  by_cases hep : some dst = b.epsq
  · rw [if_pos hep, if_pos hep]
    rfl
  · rw [if_neg hep, if_neg hep, h.pieceAt_eq]
    have hne : man dst ≠ none := hd.1.2.resolve_right (fun e => hep e.symm)
    cases hm : man dst with
    | none => exact absurd hm hne
    | some m => rfl

theorem pushLoop_eq (ml : Movelist) :
    b.pushLoop ml = ml.addAll (b.pushPlies.map Ply.encode) := by
  unfold Board.pushLoop Board.pushPlies
  rw [List.map_flatMap]
  apply forSquares_eq
  intro src _ ml
  exact forSquares_add (f := fun dst => Ply.move src dst .pawn none) (fun dst _ => rfl) ml

/-- **`generate_captures` appends the words of `capturePlies`.** -/
theorem generateCaptures_eq (h : Consistent b man) (allpromo : Bool) (ml : Movelist) :
    b.generateCaptures allpromo ml = ml.addAll ((b.capturePlies allpromo).map Ply.encode) := by
  have hcap : ∀ p src dst, mem (b.getPieces b.side.xside) dst = true →
      Move.capture src dst (some p) (b.pieceAt dst) =
        (Ply.move src dst p (b.pieceAt dst)).encode := by
    intro p src dst hd
    obtain ⟨q, hq, _⟩ := pieceAt_of_mem h hd
    rw [hq]
    rfl
  unfold Board.generateCaptures Board.capturePlies
  simp only
  rw [pieceLoops_eq (m := fun p src dst => Move.capture src dst (some p) (b.pieceAt dst)) hcap,
    pawnCaptureLoop_eq h, promotionLoop_eq h, ← Movelist.addAll_append, ← Movelist.addAll_append,
    List.map_append, List.map_append, List.append_assoc]

/-- **`generate_noncaptures` appends the words of `noncapturePlies`.** -/
theorem generateNoncaptures_eq (ml : Movelist) :
    b.generateNoncaptures ml = ml.addAll (b.noncapturePlies.map Ply.encode) := by
  unfold Board.generateNoncaptures Board.noncapturePlies
  simp only
  rw [pieceLoops_eq (m := fun p src dst => Move.normal src dst (some p)) (c := fun _ => none)
    (fun p src dst _ => rfl), pushLoop_eq, generateCastling_eq, ← Movelist.addAll_append,
    ← Movelist.addAll_append, List.map_append, List.map_append, List.append_assoc]

def Board.plies (b : Board) (allpromo : Bool) : List Ply :=
  b.capturePlies allpromo ++ b.noncapturePlies

theorem generateMoves_eq (h : Consistent b man) (allpromo : Bool) (ml : Movelist) :
    b.generateMoves allpromo ml = ml.addAll ((b.plies allpromo).map Ply.encode) := by
  rw [Board.generateMoves, generateNoncaptures_eq, generateCaptures_eq h, ← Movelist.addAll_append,
    Board.plies, List.map_append]

end Loops

end HoiChess.Chess
