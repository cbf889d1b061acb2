import HoiChess.Chess.Escapes
import HoiChess.Chess.Playable
import HoiChess.Chess.Score
import HoiChess.Chess.Unambiguous

/-!
# Pawns on the first and the last rank

`parse_fen` accepts no board with a pawn on the first or the last rank, and `make_move` puts one
there exactly if it lands a pawn there (`pawnsOff_makeMove`).  Neither `is_valid_move` nor
`do_parse_move_1` tests for this: a pawn move to the last rank that names no new piece gets
through, from a PGN game or as a book move (`Sim.landsPawn_iff`).  What the evaluator and the
generator do with a pawn relies on it (`PawnsSafe`).
-/

namespace HoiChess.Chess

open WordSet Grid Rules

/-! ## Making a move -/

/-- The piece that `make_move` puts on the destination. -/
def Move.placed (mov : Move) : Option Piece :=
  if mov.isCapture || mov.isNormal then if mov.isPromotion then mov.promoteTo else mov.ptype
  else if mov.isCastle then some .king
  else if mov.isEnpassant then some .pawn
  else none

/-- The move lands a pawn on the first or the last rank. -/
def Move.LandsPawn (mov : Move) : Prop :=
  mov.placed = some .pawn ∧ (rnk mov.toSq = rank1 ∨ rnk mov.toSq = rank8)

namespace Board

/-- No pawn stands on the first or the last rank. -/
def PawnsOff (b : Board) : Prop :=
  ∀ c sq, mem (b.pos c .pawn) sq = true → rnk sq ≠ rank1 ∧ rnk sq ≠ rank8

/-- What is done with a pawn: the evaluator divides by its distance from promotion, and
`pawn_noncaptures` tests the squares ahead. -/
structure PawnsSafe (b : Board) : Prop where
  off : b.PawnsOff
  dist : ∀ c sq, mem (b.pos c .pawn) sq = true → 0 < |(sideRank c rank8 : Int) - rnk sq|
  ahead : ∀ c sq, mem (b.pos c .pawn) sq = true →
    0 ≤ (sq.val : Int) + (if c = .white then 8 else -8) ∧
      (sq.val : Int) + (if c = .white then 8 else -8) < 64
  twoAhead : ∀ c sq, mem (b.pos c .pawn) sq = true → rnk sq = pawnRank c →
    0 ≤ (sq.val : Int) + 2 * (if c = .white then 8 else -8) ∧
      (sq.val : Int) + 2 * (if c = .white then 8 else -8) < 64

theorem PawnsOff.safe {b : Board} (h : b.PawnsOff) : b.PawnsSafe where
  off := h
  dist c sq hsq := by
    obtain ⟨h1, h8⟩ := h c sq hsq
    rw [abs_pos]
    cases c with
    | white =>
      show ((rank8 : Nat) : Int) - rnk sq ≠ 0
      omega
    | black =>
      show ((7 - rank8 : Nat) : Int) - rnk sq ≠ 0
      simp only [rank1, rank8] at h1 ⊢
      omega
  ahead c sq hsq := by
    obtain ⟨h1, h8⟩ := h c sq hsq
    have hsq := sq.isLt
    simp only [rnk, rank1, rank8] at h1 h8
    split <;> omega
  twoAhead c sq hsq hr := by
    have hsq := sq.isLt
    cases c with
    | white =>
      simp only [rnk, pawnRank, rank2] at hr
      rw [if_pos rfl]
      omega
    | black =>
      simp only [rnk, pawnRank, rank7] at hr
      rw [if_neg (by decide)]
      omega

end Board

/-- The square on which an operation puts a pawn. -/
def PieceOp.landing : PieceOp → Option Square
  | place sq _ .pawn => some sq
  | move _ dst _ .pawn => some dst
  | _ => none

section Bits

variable {b : Board}

/-- One bitboard of a position is replaced. -/
theorem pos_set (b : Board) (c d : Color) (p q : Piece) (bb : Bitboard) :
    ((b.position.set c ((b.position.get c).set p bb)).get d).get q =
      if c = d ∧ p = q then bb else b.pos d q := by
  rw [PerColor.get_set]
  by_cases hc : c = d
  · subst hc
    rw [if_pos rfl, PerPiece.get_set]
    by_cases hp : p = q
    · rw [if_pos hp, if_pos ⟨rfl, hp⟩]
    · rw [if_neg hp, if_neg (fun h => hp h.2)]
  · rw [if_neg hc, if_neg (fun h => hc h.1)]

variable [k : Build]

/-- **An operation puts a pawn on its landing square** and leaves the other squares without new
pawns. -/
theorem mem_pawns_exec {op : PieceOp} {d : Color} {t : Square}
    (h : mem ((op.exec b).pos d .pawn) t = true) :
    mem (b.pos d .pawn) t = true ∨ op.landing = some t := by
  cases op with
  | place sq c p =>
    change mem (((b.position.set c ((b.position.get c).set p (insert (b.pos c p) sq))).get d).get
      .pawn) t = true at h
    rw [pos_set] at h
    split at h
    · rename_i heq
      obtain ⟨rfl, rfl⟩ := heq
      rw [mem_insert, Bool.or_eq_true, decide_eq_true_eq] at h
      exact h.imp id fun e => congrArg some e
    · exact .inl h
  | remove sq c p =>
    change mem (((b.position.set c ((b.position.get c).set p (Bitboard.clearbit (b.pos c p) sq))).get
      d).get .pawn) t = true at h
    rw [pos_set] at h
    split at h
    · rename_i heq
      obtain ⟨rfl, rfl⟩ := heq
      rw [mem_erase, Bool.and_eq_true] at h
      exact .inl h.1
    · exact .inl h
  | move src dst c p =>
    change mem (((b.position.set c ((b.position.get c).set p
      (insert (Bitboard.clearbit (b.pos c p) src) dst))).get d).get .pawn) t = true at h
    rw [pos_set] at h
    split at h
    · rename_i heq
      obtain ⟨rfl, rfl⟩ := heq
      rw [mem_insert, mem_erase, Bool.or_eq_true, Bool.and_eq_true, decide_eq_true_eq] at h
      exact h.imp And.left fun e => congrArg some e
    · exact .inl h

theorem mem_pawns_runOps {ops : List PieceOp} {d : Color} {t : Square}
    (h : mem ((b.runOps ops).pos d .pawn) t = true) :
    mem (b.pos d .pawn) t = true ∨ ∃ op ∈ ops, op.landing = some t := by
  induction ops generalizing b with
  | nil => exact .inl h
  | cons op ops ih =>
    rcases ih (b := op.exec b) h with h | ⟨op', hmem, hland⟩
    · exact (mem_pawns_exec h).imp id fun hland => ⟨op, List.mem_cons_self, hland⟩
    · exact .inr ⟨op', List.mem_cons_of_mem _ hmem, hland⟩

omit k in
theorem landing_place {c : Color} {sq t : Square} {p : Option Piece} {op : PieceOp}
    (hop : op ∈ (p.map (PieceOp.place sq c)).toList) (h : op.landing = some t) :
    p = some .pawn ∧ t = sq := by
  cases p with
  | none => cases hop
  | some p =>
    obtain rfl := List.mem_singleton.mp hop
    cases p <;> cases h
    exact ⟨rfl, rfl⟩

omit k in
theorem landing_move {c : Color} {src dst t : Square} {p : Option Piece} {op : PieceOp}
    (hop : op ∈ (p.map (PieceOp.move src dst c)).toList) (h : op.landing = some t) :
    p = some .pawn ∧ t = dst := by
  cases p with
  | none => cases hop
  | some p =>
    obtain rfl := List.mem_singleton.mp hop
    cases p <;> cases h
    exact ⟨rfl, rfl⟩

omit k in
theorem landing_remove {c : Color} {sq t : Square} {p : Option Piece} {op : PieceOp}
    (hop : op ∈ (p.map (PieceOp.remove sq c)).toList) : op.landing ≠ some t := by
  cases p with
  | none => cases hop
  | some p =>
    obtain rfl := List.mem_singleton.mp hop
    exact fun h => by cases h

omit k in
/-- The operations of a move put a pawn only on its destination. -/
theorem landing_moveOps {mov : Move} {op : PieceOp} (hop : op ∈ b.moveOps mov) {t : Square}
    (h : op.landing = some t) : mov.placed = some .pawn ∧ t = mov.toSq := by
  unfold Board.moveOps at hop
  unfold Move.placed
  split at hop
  · rename_i hcap
    rw [hcap, Bool.true_or, if_pos rfl]
    split at hop
    · rename_i hpromo
      rw [if_pos hpromo]
      rcases List.mem_append.mp hop with hop | hop
      · rcases List.mem_append.mp hop with hop | hop
        · obtain rfl := List.mem_singleton.mp hop
          cases h
        · exact absurd h (landing_remove hop)
      · exact landing_place hop h
    · rename_i hpromo
      rw [if_neg hpromo]
      rcases List.mem_append.mp hop with hop | hop
      · exact absurd h (landing_remove hop)
      · exact landing_move hop h
  split at hop
  · rename_i hcap hnormal
    rw [hnormal, Bool.or_true, if_pos rfl]
    split at hop
    · rename_i hpromo
      rw [if_pos hpromo]
      rcases List.mem_append.mp hop with hop | hop
      · obtain rfl := List.mem_singleton.mp hop
        cases h
      · exact landing_place hop h
    · rename_i hpromo
      rw [if_neg hpromo]
      exact landing_move hop h
  rename_i hcap hnormal
  rw [if_neg (by rw [Bool.or_eq_true]; exact not_or.mpr ⟨hcap, hnormal⟩)]
  split at hop
  · rcases List.mem_cons.mp hop with rfl | hop
    · cases h
    · unfold Board.castleRookOp at hop
      split at hop
      · obtain rfl := List.mem_singleton.mp hop
        cases h
      split at hop
      · obtain rfl := List.mem_singleton.mp hop
        cases h
      split at hop
      · obtain rfl := List.mem_singleton.mp hop
        cases h
      split at hop
      · obtain rfl := List.mem_singleton.mp hop
        cases h
      · cases hop
  rename_i hcastle
  rw [if_neg hcastle]
  split at hop
  · rename_i hep
    rw [if_pos hep]
    rcases List.mem_cons.mp hop with rfl | hop
    · cases h
      exact ⟨rfl, rfl⟩
    · obtain ⟨sq, _, rfl⟩ := Option.map_eq_some_iff.mp (Option.mem_toList.mp hop)
      cases h
  · cases hop

/-- What follows the operations does not touch the men. -/
theorem position_makeMove (mov : Move) :
    (b.makeMove mov).position = (b.runOps (b.moveOps mov)).position := by
  have hcastled : ∀ b' : Board, (b'.setCastled mov).position = b'.position := by
    intro b'
    unfold Board.setCastled
    split <;> rfl
  have hflags := (samePieces_clearCastling ((b.runOps (b.moveOps mov)).setCastled mov) mov).position
  have hep := (samePieces_updateEpsq
    (((b.runOps (b.moveOps mov)).setCastled mov).clearCastling mov) mov).1.position
  change Board.position (Board.updateEpsq _ _) = _
  rw [hep, hflags, hcastled]

/-- **A move that lands no pawn on the first or the last rank leaves none there.** -/
theorem pawnsOff_makeMove (h : b.PawnsOff) {mov : Move} (hmov : ¬ mov.LandsPawn) :
    (b.makeMove mov).PawnsOff := by
  intro c sq hsq
  unfold Board.pos at hsq
  rw [position_makeMove] at hsq
  rcases mem_pawns_runOps hsq with hsq | ⟨op, hop, hland⟩
  · exact h c sq hsq
  · obtain ⟨hplaced, rfl⟩ := landing_moveOps hop hland
    exact not_or.mp fun hrank => hmov ⟨hplaced, hrank⟩

omit k in
/-- `is_valid` looks for pawns there. -/
theorem pawnsOff_of_isValid (h : b.isValid = true) : b.PawnsOff := by
  unfold Board.isValid at h
  simp only [Bool.and_eq_true, Bool.not_eq_true'] at h
  obtain ⟨⟨_, hpawns⟩, _⟩ := h
  intro c sq hsq
  rw [← not_or]
  intro hrank
  refine Bool.false_ne_true (hpawns.symm.trans ((any_iff _).mpr ⟨sq, ?_⟩))
  rw [mem_and, mem_or, mem_or, mem_rankBb, mem_rankBb, Bool.and_eq_true]
  refine ⟨?_, ?_⟩
  · cases c
    · rw [hsq, Bool.true_or]
    · rw [hsq, Bool.or_true]
  · rw [Bool.or_eq_true, decide_eq_true_eq, decide_eq_true_eq]
    exact hrank

theorem pawnsOff_parseFen {s : String} (h : Board.parseFen s = .accepted b) : b.PawnsOff := by
  obtain ⟨f, _, hacc⟩ := fields_of_accepted h
  unfold Board.parseFenFields at hacc
  simp only at hacc
  split at hacc
  · cases hacc
  split at hacc
  · split at hacc
    · cases hacc
    split at hacc
    · rename_i hok
      cases hacc
      rw [Bool.and_eq_true] at hok
      exact pawnsOff_of_isValid hok.1
    · cases hacc
  · cases hacc

end Bits

/-! ## How moves enter a game -/

/-- The ways in which a move comes to be made: the generators list it for a search, a user types
it, a PGN game or a book has it, or a search passes. -/
inductive Entrance where
  | generated (mov : Move)
  | typed (s : List Char) (pseudolegal : Bool)
  | pgn (s : List Char)
  | book (fac : Factory)
  | null

namespace Entrance

variable [Build] (b : Board)

/-- The move that is made. -/
def move : Entrance → Move
  | generated mov => mov
  | typed s pseudolegal => b.parseMove s pseudolegal
  | pgn s => b.parseMove1 s
  | book fac => fac.word
  | null => .null

/-- The program accepts the move. -/
def Open : Entrance → Prop
  | generated mov =>
    (∃ allpromo, mov ∈ (b.generateMoves allpromo .empty).moves ∨
      mov ∈ (b.generateCaptures allpromo .empty).moves) ∨
      b.inCheck = true ∧ mov ∈ (b.generateEscapes .empty).moves
  | typed s pseudolegal => b.parseMove s pseudolegal ≠ .noMove
  | pgn s => b.parseMove1 s ≠ .noMove
  | book fac => fac.Allowed b.side ∧ b.isValidMove fac.word = true ∧ b.isLegalMove fac.word = true
  | null => True

end Entrance

/-- The call moves a pawn to the last rank, or has one promoted to a pawn there. -/
def Factory.LeavesPawn (c : Color) : Factory → Prop
  | normal _ dst p | capture _ dst p _ | promotion _ dst p | promotionCapture _ dst p _ =>
    p = some .pawn ∧ rnk dst = lastRank c
  | enpassant _ _ | castle _ _ => False

/-- The text names a pawn move to the last rank and no new piece. -/
def MoveText.LeavesPawn (pos : Position) : MoveText → Prop
  | coordinate src dst none => pos.man src = some (pos.side, .pawn) ∧ rnk dst = lastRank pos.side
  | pawnCapture _ dst none | pawnPush dst none => rnk dst = lastRank pos.side
  | _ => False

/-- The move names no new piece for a pawn on the last rank. -/
def Entrance.LeavesPawn (pos : Position) : Entrance → Prop
  | pgn s => (scanText s).LeavesPawn pos
  | book fac => fac.LeavesPawn pos.side
  | generated _ | typed _ _ | null => False

/-- The boards that can be reached from a FEN by moves that land no pawn on the first or the last
rank. -/
inductive Entered [Build] : Board → Prop
  | fen {s b} : Board.parseFen s = .accepted b → Entered b
  | move {b} {e : Entrance} : Entered b → e.Open b → ¬ (e.move b).LandsPawn →
    Entered (b.makeMove (e.move b))

section Landing

variable [k : Build] {b : Board} {pos : Position}

theorem Entered.pawnsOff (h : Entered b) : b.PawnsOff := by
  induction h with
  | fen h => exact pawnsOff_parseFen h
  | move _ _ hmov ih => exact pawnsOff_makeMove ih hmov

omit k in
/-- A pawn reaches neither rank but the last one. -/
theorem back_rank_iff (hs : Sane pos) {src dst : Square} {cap : Option Piece}
    (hc : pos.Carries src dst .pawn cap) :
    rnk dst = rank1 ∨ rnk dst = rank8 ↔ rnk dst = lastRank pos.side := by
  obtain ⟨n, hn, hahead⟩ := pawn_targets_rank hc.2.2
  have hsrc := hs.pawns _ _ hc.1
  have hb := rnk_lt src
  cases hside : pos.side <;> rw [hside] at hahead <;>
    simp only [Ahead, lastRank, rank1, rank8] at hahead hsrc ⊢ <;> omega

omit k in
/-- En passant squares lie elsewhere. -/
theorem ep_rank_ne (hs : Sane pos) {dst : Square} (h : pos.ep = some dst) :
    ¬(rnk dst = rank1 ∨ rnk dst = rank8) := by
  rw [(hs.ep dst h).rank]
  cases pos.side <;> decide

omit k in
/-- What a call puts on its destination. -/
theorem placed_pack (src dst : Square) (p cap : Option Piece) {fl : BitVec 16} (hfl : fl.toNat < 2 ^ 14)
    (hland : (fl &&& Move.moveCapture != 0#16 || fl &&& Move.moveNormal != 0#16) = true) :
    (Move.pack (some src) (some dst) p cap fl).placed = p := by
  have hflags := Move.flags_pack p cap fl (some src) (some dst) hfl
  unfold Move.placed
  rw [Move.isCapture, Move.isNormal, Move.isPromotion, Move.hasFlag, Move.hasFlag, Move.hasFlag, hflags,
    if_pos hland, Move.promoteTo_pack _ _ _ _ _ hfl, Move.ptype_pack _ _ _ _ _ hfl]
  split
  · rfl
  · rfl

omit k in
theorem placed_castle (src dst : Square) : (Move.castle src dst).placed = some .king := by
  have hflags := Move.flags_pack (some .king) none Move.moveCastle (some src) (some dst) (by decide)
  unfold Move.placed Move.isCapture Move.isNormal Move.isCastle Move.hasFlag
  rw [hflags]
  rfl

omit k in
theorem placed_encode (ply : Ply) : ply.encode.placed = some ply.codedPiece := by
  cases ply with
  | move src dst p cap => cases cap <;> exact placed_pack src dst (some p) _ (by decide) (by decide)
  | promote src dst p cap => cases cap <;> exact placed_pack src dst (some p) _ (by decide) (by decide)
  | enpassant src dst =>
    have hflags := Move.flags_pack (some .pawn) (some .pawn) Move.moveEnpassant (some src) (some dst)
      (by decide)
    show (Move.enpassant src dst).placed = some .pawn
    unfold Move.placed Move.isCapture Move.isNormal Move.isCastle Move.isEnpassant Move.hasFlag
    rw [hflags]
    rfl
  | castle f => exact placed_castle f.kingHome f.kingDest

omit k in
theorem landsPawn_encode (hs : Sane pos) {ply : Ply} (hp : pos.Pseudo ply) : ¬ ply.encode.LandsPawn := by
  unfold Move.LandsPawn
  rw [placed_encode, Ply.toSq_encode]
  rintro ⟨hpawn, hrank⟩
  cases ply with
  | move src dst p cap =>
    obtain rfl : p = .pawn := Option.some.inj hpawn
    exact hp.2 ⟨rfl, (back_rank_iff hs hp.1).mp hrank⟩
  | promote src dst p cap =>
    obtain rfl : p = .pawn := Option.some.inj hpawn
    exact absurd hp.2.2 (by decide)
  | enpassant src dst => exact ep_rank_ne hs hp.2.1 hrank
  | castle f => cases hpawn

omit k in
theorem landsPawn_word (hs : Sane pos) {fac : Factory} (h : fac.Accepted pos) :
    fac.word.LandsPawn ↔ fac.LeavesPawn pos.side := by
  have hpack : ∀ {src dst : Square} {p cap : Option Piece} {fl : BitVec 16}, fl.toNat < 2 ^ 14 →
      (fl &&& Move.moveCapture != 0#16 || fl &&& Move.moveNormal != 0#16) = true →
      (p = some .pawn → ∃ cap, pos.Carries src dst .pawn cap) →
      ((Move.pack (some src) (some dst) p cap fl).LandsPawn ↔
        p = some .pawn ∧ rnk dst = lastRank pos.side) := by
    intro src dst p cap fl hfl hland hcarries
    unfold Move.LandsPawn
    rw [placed_pack _ _ _ _ hfl hland, Move.toSq_pack _ _ _ _ _ hfl]
    refine and_congr_right fun hp => ?_
    obtain ⟨cap', hc⟩ := hcarries hp
    exact back_rank_iff hs hc
  cases fac with
  | normal src dst p =>
    refine hpack (by decide) (by decide) ?_
    rintro rfl
    obtain ⟨p', hp, hc⟩ := h
    obtain rfl := Option.some.inj hp
    exact ⟨_, hc⟩
  | capture src dst p cap =>
    refine hpack (by decide) (by decide) ?_
    rintro rfl
    obtain ⟨p', q, hp, hc⟩ := h
    obtain rfl := Option.some.inj hp
    exact ⟨_, hc⟩
  | enpassant src dst =>
    refine iff_of_false (fun hland => ep_rank_ne hs h.2.1 ?_) id
    have hrank := hland.2
    rwa [Factory.word, Move.toSq_pack _ _ _ _ _ (by decide)] at hrank
  | promotion src dst p => exact hpack (by decide) (by decide) fun _ => ⟨_, h⟩
  | promotionCapture src dst p cap =>
    obtain ⟨q, hc⟩ := h
    exact hpack (by decide) (by decide) fun _ => ⟨_, hc⟩
  | castle src f =>
    refine iff_of_false (fun hland => ?_) id
    have hplaced := hland.1
    rw [Factory.word, placed_castle] at hplaced
    cases hplaced

omit k in
theorem promotionPieces_ne_pawn {q : Piece} (hq : q ∈ promotionPieces) : some q ≠ some Piece.pawn := by
  revert hq
  cases q <;> decide

theorem Sim.epsq_rank_ne (h : Sim b pos) (hs : Sane pos) {dst : Square} (he : some dst = b.epsq) :
    rnk dst ≠ lastRank pos.side := by
  intro hl
  refine ep_rank_ne hs (h.ep.symm.trans he.symm) ?_
  rw [hl]
  cases pos.side
  · exact .inr rfl
  · exact .inl rfl

omit k in
theorem Board.castleCall_leavesPawn {fac : Factory} {wf bf : CastleFlag}
    (hcall : b.castleCall wf bf = some fac) (c : Color) : ¬ fac.LeavesPawn c := by
  unfold Board.castleCall at hcall
  split at hcall
  · cases hcall
    exact id
  · split at hcall <;> cases hcall
    exact id

/-- A text with both squares. -/
theorem Sim.coordinate_leavesPawn (h : Sim b pos) (hs : Sane pos) {src dst : Square}
    {suffix : Option Char} {fac : Factory} (hread : b.readMove (.coordinate src dst suffix) = some fac)
    (ha : fac.Accepted pos) :
    fac.LeavesPawn pos.side ↔ (MoveText.coordinate src dst suffix).LeavesPawn pos := by
  have hpawn : ∀ {p : Piece}, b.pieceAt src = some p → pos.man src = some (pos.side, p) →
      (b.pieceAt src = some .pawn ↔ pos.man src = some (pos.side, .pawn)) := by
    intro p hp hm
    rw [hp, hm, Option.some.injEq, Option.some.injEq, Prod.mk.injEq, and_iff_right rfl]
  simp only [Board.readMove, Board.coordinateCall] at hread
  split at hread
  · rename_i f hf
    cases hread
    refine iff_of_false id fun hl => ?_
    split at hf
    · rename_i hking
      cases suffix with
      | some c => exact hl
      | none =>
        rw [h.pieceAt_of_man hl.1] at hking
        cases hking
    · cases hf
  cases suffix with
  | some c =>
    obtain ⟨q, hq, rfl⟩ := Option.map_eq_some_iff.mp hread
    refine iff_of_false (fun hl => ?_) id
    split at hl
    · exact promotionPieces_ne_pawn (promoLower_mem hq) hl.1
    · exact promotionPieces_ne_pawn (promoLower_mem hq) hl.1
  | none =>
    simp only at hread
    split at hread
    · cases hread
      obtain ⟨p, q, hp, hc⟩ := ha
      exact and_congr_left' (hpawn hp hc.1)
    split at hread
    · rename_i he
      cases hread
      exact iff_of_false id fun hl => h.epsq_rank_ne hs he hl.2
    · cases hread
      obtain ⟨p, hp, hc⟩ := ha
      exact and_congr_left' (hpawn hp hc.1)

/-- A text of a capture by a pawn. -/
theorem Sim.pawnCapture_leavesPawn (h : Sim b pos) (hs : Sane pos) {f : Fin 8} {dst : Square}
    {suffix : Option Char} {fac : Factory}
    (hread : b.readMove (.pawnCapture f dst suffix) = some fac) :
    fac.LeavesPawn pos.side ↔ (MoveText.pawnCapture f dst suffix).LeavesPawn pos := by
  cases suffix with
  | some c =>
    obtain ⟨q, hq, rfl⟩ := Option.map_eq_some_iff.mp hread
    exact iff_of_false (fun hl => promotionPieces_ne_pawn (promoUpper_mem hq) hl.1) id
  | none =>
    simp only [Board.readMove, Board.captureCall] at hread
    split at hread
    · rename_i he
      cases hread
      exact iff_of_false id (h.epsq_rank_ne hs he)
    · cases hread
      exact and_iff_right rfl

/-- A text of the advance of a pawn. -/
theorem Board.pawnPush_leavesPawn {dst : Square} {suffix : Option Char} {fac : Factory}
    (hread : b.readMove (.pawnPush dst suffix) = some fac) :
    fac.LeavesPawn pos.side ↔ (MoveText.pawnPush dst suffix).LeavesPawn pos := by
  simp only [Board.readMove, Board.pushCall] at hread
  split at hread
  · cases hread
  cases suffix with
  | some c =>
    obtain ⟨q, hq, rfl⟩ := Option.map_eq_some_iff.mp hread
    exact iff_of_false (fun hl => promotionPieces_ne_pawn (promoUpper_mem hq) hl.1) id
  | none =>
    cases hread
    exact and_iff_right rfl

/-- A text that names a piece. -/
theorem Board.piece_leavesPawn {p : Piece} (hp : p ≠ .pawn) {f r : Option (Fin 8)} {capture : Bool}
    {dst : Square} {fac : Factory} (hread : b.readMove (.piece p f r capture dst) = some fac)
    (c : Color) : ¬ fac.LeavesPawn c := by
  intro hl
  have hp : some p ≠ some Piece.pawn := fun e => hp (Option.some.inj e)
  simp only [Board.readMove, Board.pieceCall] at hread
  split at hread
  · cases hread
  split at hread
  · cases hread
  split at hread
  · cases hread
  split at hread
  · cases hread
  split at hread <;> cases hread
  · exact hp hl.1
  · exact hp hl.1

/-- What the fast parser makes of a text that leaves a pawn on the last rank, and of no other. -/
theorem Sim.readMove_leavesPawn (h : Sim b pos) (hs : Sane pos) {s : List Char} {fac : Factory}
    (hread : b.readMove (scanText s) = some fac) (ha : fac.Accepted pos) :
    fac.LeavesPawn pos.side ↔ (scanText s).LeavesPawn pos := by
  cases ht : scanText s with
  | castleShort =>
    rw [ht] at hread
    exact iff_of_false (Board.castleCall_leavesPawn hread _) id
  | castleLong =>
    rw [ht] at hread
    exact iff_of_false (Board.castleCall_leavesPawn hread _) id
  | coordinate src dst suffix =>
    rw [ht] at hread
    exact h.coordinate_leavesPawn hs hread ha
  | pawnCapture f dst suffix =>
    rw [ht] at hread
    exact h.pawnCapture_leavesPawn hs hread
  | pawnPush dst suffix =>
    rw [ht] at hread
    exact Board.pawnPush_leavesPawn hread
  | piece p f r capture dst =>
    rw [ht] at hread
    exact iff_of_false (Board.piece_leavesPawn (scanText_piece ht) hread _) id
  | invalid =>
    rw [ht] at hread
    cases hread

/-- `parse_move` returns a move of its list. -/
theorem Board.parseMove_cases (b : Board) (s : List Char) (pseudolegal : Bool) :
    b.parseMove s pseudolegal = .noMove ∨ b.parseMove s pseudolegal ∈
      (if pseudolegal then b.generateMoves true .empty else b.legalMoves).moves := by
  unfold Board.parseMove
  simp only
  generalize hfind : List.find? _ _ = found
  cases found with
  | none => exact .inl rfl
  | some mov => exact .inr (List.mem_of_find?_eq_some hfind)

/-- `parse_move_1` returns a word that passes both checks. -/
theorem Board.parseMove1_call (b : Board) {s : List Char} (h : b.parseMove1 s ≠ .noMove) :
    ∃ fac, b.readMove (scanText s) = some fac ∧ b.parseMove1 s = fac.word ∧
      b.isValidMove fac.word = true ∧ b.isLegalMove fac.word = true := by
  unfold Board.parseMove1 Board.doParseMove1 at h ⊢
  cases hread : b.readMove (scanText s) with
  | none =>
    rw [hread] at h
    simp at h
  | some fac =>
    rw [hread] at h
    simp only at h ⊢
    split at h
    · rename_i hok
      exact ⟨fac, rfl, if_pos hok, hok.2⟩
    · exact absurd rfl h

/-- **Which accepted moves land a pawn on the first or the last rank**, on the boards of games. -/
theorem Sim.landsPawn_iff (h : Sim b pos) (hs : Sane pos) {e : Entrance} (ho : e.Open b) :
    (e.move b).LandsPawn ↔ e.LeavesPawn pos := by
  have hlisted : ∀ {mov : Move}, (∃ ply, mov = ply.encode ∧ pos.Pseudo ply) → ¬ mov.LandsPawn := by
    rintro mov ⟨ply, rfl, hp⟩
    exact landsPawn_encode hs hp
  cases e with
  | generated mov =>
    refine iff_of_false (hlisted ?_) id
    rcases ho with ⟨allpromo, hm | hm⟩ | ⟨_, hm⟩
    · exact h.of_mem_generateMoves hs hm
    · exact h.of_mem_generateCaptures hs hm
    · exact h.of_mem_generateEscapes hs hm
  | typed s pseudolegal =>
    refine iff_of_false (hlisted ?_) id
    have hmem := (b.parseMove_cases s pseudolegal).resolve_left ho
    cases pseudolegal with
    | true => exact h.of_mem_generateMoves hs hmem
    | false =>
      obtain ⟨ply, heq, hl⟩ := h.of_mem_filterIllegal hs hmem
      exact ⟨ply, heq, hl.1⟩
  | pgn s =>
    obtain ⟨fac, hread, hword, hvalid, _⟩ := b.parseMove1_call ho
    have hallowed := readMove_allowed hread
    rw [h.side] at hallowed
    have ha := (h.isValidMove_word hs fac hallowed).mp hvalid
    show (b.parseMove1 s).LandsPawn ↔ _
    rw [hword]
    exact (landsPawn_word hs ha).trans (h.readMove_leavesPawn hs hread ha)
  | book fac =>
    obtain ⟨hallowed, hvalid, _⟩ := ho
    rw [h.side] at hallowed
    exact landsPawn_word hs ((h.isValidMove_word hs fac hallowed).mp hvalid)
  | null =>
    refine iff_of_false (fun hland => ?_) id
    have hplaced : Move.null.placed = none := by decide
    exact absurd (hplaced.symm.trans hland.1) (by decide)

/-- **Where no accepted move lands a pawn on the first or the last rank, none ever stands there**,
and the divisions and lookups that are made for pawns are safe; and on the boards of games those
moves are the ones from a PGN text that names no new piece, or from a factory call that leaves
the pawn a pawn. -/
theorem pawns_stay_off : (∀ b : Board, Entered b → b.PawnsSafe) ∧
    ∀ b : Board, Sim b b.abs → Sane b.abs → ∀ e : Entrance, e.Open b →
      ((e.move b).LandsPawn ↔ e.LeavesPawn b.abs) :=
  ⟨fun _ h => h.pawnsOff.safe, fun _ h hs _ ho => h.landsPawn_iff hs ho⟩

end Landing

/-- After the advance of the king's pawn, which a PGN game may have. -/
theorem pawns_stay_off_advance : ∃ b, @Board.parseFen sampleBuild openingFen = .accepted b ∧
    (@Board.makeMove sampleBuild b (@Board.parseMove1 sampleBuild b "e4".toList)).PawnsSafe := by
  let _ := sampleBuild
  let advances (b : Board) : Bool :=
    decide (b.parseMove1 "e4".toList = (Ply.move 12 28 .pawn none).encode)
  have hrun : (Board.parseFen openingFen).holds advances = true := by decide +kernel
  obtain ⟨b, hb, hadvance⟩ := FenResult.holds_eq_true.mp hrun
  have hmov := of_decide_eq_true hadvance
  have hopen : (Entrance.pgn "e4".toList).Open b := by
    show b.parseMove1 "e4".toList ≠ .noMove
    rw [hmov]
    decide
  have hland : ¬ ((Entrance.pgn "e4".toList).move b).LandsPawn := by
    show ¬ (b.parseMove1 "e4".toList).LandsPawn
    rw [hmov]
    rintro ⟨_, hrank⟩
    rw [Ply.toSq_encode] at hrank
    revert hrank
    decide
  have hentered : Entered (b.makeMove ((Entrance.pgn "e4".toList).move b)) :=
    .move (.fen hb) hopen hland
  exact ⟨b, hb, pawns_stay_off.1 _ hentered⟩

/-- The text `e8` is taken for a move, which leaves a pawn on e8. -/
theorem pawn_on_e8 : ∃ b, @Board.parseFen sampleBuild "8/k3P3/8/8/8/8/8/K7 w - - 0 1" = .accepted b ∧
    @Board.parseMove1 sampleBuild b "e8".toList ≠ .noMove ∧
      ¬ (@Board.makeMove sampleBuild b (@Board.parseMove1 sampleBuild b "e8".toList)).PawnsOff := by
  let _ := sampleBuild
  let lands (b : Board) : Bool :=
    decide (b.parseMove1 "e8".toList ≠ .noMove ∧
      mem ((b.makeMove (b.parseMove1 "e8".toList)).pos .white .pawn) 60 = true)
  have hrun : (Board.parseFen "8/k3P3/8/8/8/8/8/K7 w - - 0 1").holds lands = true := by
    decide +kernel
  obtain ⟨b, hb, hland⟩ := FenResult.holds_eq_true.mp hrun
  obtain ⟨hopen, hpawn⟩ := of_decide_eq_true hland
  exact ⟨b, hb, hopen, fun hoff => (hoff .white 60 hpawn).2 (by decide)⟩

end HoiChess.Chess
