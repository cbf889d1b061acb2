import HoiChess.Chess.Exact

/-!
# The validity check of moves from elsewhere

`is_valid_move` decides whether a move word from the hash table or from a book
is pseudo-legal on a board.  A `Factory` is a call of one of the public
functions that build moves.  The check accepts what `Factory.Accepted` says
(`Sim.isValidMove_word`), the generator lists what is also well formed
(`Sim.word_mem_generateMoves`).  The two differ exactly on the calls that are
`Factory.Malformed`: nothing in the check looks at the rank of a promotion, at
the new piece, at the captured piece in the word or at the square from which
the king castles (`reached_isValidMove_exact`).
-/

namespace HoiChess.Chess

open WordSet Grid Rules

namespace Board

variable [Build] (b : Board)

/-- One case of the switch over castling squares. -/
def castlingValid (f : CastleFlag) (s t transit : Square) (enemy : Color) : Bool :=
  b.hasFlag f && !Bitboard.any (b.occupied &&& rayBb s t) && !b.isAttacked transit enemy

/-- The switch; another destination is a `BUG` that ends the program. -/
def castlingSwitch (dst : Square) : Bool :=
  if dst = g1 then b.castlingValid .wk e1 h1 f1 .black
  else if dst = c1 then b.castlingValid .wq a1 e1 d1 .black
  else if dst = g8 then b.castlingValid .bk e8 h8 f8 .white
  else if dst = c8 then b.castlingValid .bq a8 e8 d8 .white
  else false

/-- The destination holds what the flags of the move say. -/
def destinationValid (mov : Move) : Bool :=
  if mov.isCapture then decide (b.colorAt mov.toSq = some b.side.xside)
  else if mov.isEnpassant then decide (some mov.toSq = b.epsq)
  else decide (b.colorAt mov.toSq = none)

/-- The piece on the origin moves that way. -/
def movementValid (mov : Move) : Bool :=
  match b.pieceAt mov.fromSq with
  | none => false
  | some .pawn =>
    if mov.isCapture || mov.isEnpassant then
      Bitboard.testbit (b.pawnCaptures mov.fromSq b.side) mov.toSq
    else Bitboard.testbit (b.pawnNoncaptures mov.fromSq b.side) mov.toSq
  | some p => Bitboard.testbit (b.attacksOf p b.side mov.fromSq) mov.toSq

/-- `is_valid_move`.  The ranks of a promotion are only asserted in debug builds. -/
def isValidMove (mov : Move) : Bool :=
  if mov.isNull then true
  else if mov.isCastle then !b.inCheck && b.castlingSwitch mov.toSq
  else
    decide (b.colorAt mov.fromSq = some b.side ∧ b.pieceAt mov.fromSq = mov.ptype) &&
      b.destinationValid mov && b.movementValid mov

end Board

/-! ## Calls of the factories -/

inductive Factory where
  | normal (src dst : Square) (ptype : Option Piece)
  | capture (src dst : Square) (ptype capPtype : Option Piece)
  | enpassant (src dst : Square)
  | promotion (src dst : Square) (promote : Option Piece)
  | promotionCapture (src dst : Square) (promote capPtype : Option Piece)
  | castle (src : Square) (f : CastleFlag)
  deriving DecidableEq, Repr

namespace Factory

/-- The move word that a call returns. -/
def word : Factory → Move
  | normal src dst p => .normal src dst p
  | capture src dst p cap => .capture src dst p cap
  | enpassant src dst => .enpassant src dst
  | promotion src dst p => .promotion src dst p
  | promotionCapture src dst p cap => .promotionCapture src dst p cap
  | castle src f => .castle src f.kingDest

/-- Castling is only called for, from `E1` or `E8`, with a castling square of the moving side. -/
def Allowed (c : Color) : Factory → Prop
  | castle src f => (src = e1 ∨ src = e8) ∧ f.color = c
  | _ => True

/-- The move of the rules that a call stands for. -/
def ply : Factory → Option Ply
  | normal src dst p => p.map (fun p => .move src dst p none)
  | capture src dst (some p) (some q) => some (.move src dst p (some q))
  | capture _ _ _ _ => none
  | enpassant src dst => some (.enpassant src dst)
  | promotion src dst p => p.map (fun p => .promote src dst p none)
  | promotionCapture src dst (some p) (some q) => some (.promote src dst p (some q))
  | promotionCapture _ _ _ _ => none
  | castle src f => if src = f.kingHome then some (.castle f) else none

/-- What the check looks at. -/
def Accepted (pos : Position) : Factory → Prop
  | normal src dst p => ∃ p', p = some p' ∧ pos.Carries src dst p' none
  | capture src dst p _ => ∃ p' q, p = some p' ∧ pos.Carries src dst p' (some q)
  | enpassant src dst => pos.Pseudo (.enpassant src dst)
  | promotion src dst _ => pos.Carries src dst .pawn none
  | promotionCapture src dst _ _ => ∃ q, pos.Carries src dst .pawn (some q)
  | castle _ f => pos.Pseudo (.castle f)

/-- A piece moves as it can, but the call does not describe a move of the rules. -/
def Malformed (pos : Position) : Factory → Prop
  | normal src dst p =>
    p = some .pawn ∧ rnk dst = lastRank pos.side ∧ pos.Carries src dst .pawn none
  | capture src dst p cap =>
    ∃ p' q, p = some p' ∧ pos.Carries src dst p' (some q) ∧
      (cap ≠ some q ∨ p' = .pawn ∧ rnk dst = lastRank pos.side)
  | enpassant _ _ => False
  | promotion src dst p =>
    pos.Carries src dst .pawn none ∧
      (rnk dst ≠ lastRank pos.side ∨ ∀ q ∈ promotionPieces, p ≠ some q)
  | promotionCapture src dst p cap =>
    ∃ q, pos.Carries src dst .pawn (some q) ∧
      (rnk dst ≠ lastRank pos.side ∨ (∀ q ∈ promotionPieces, p ≠ some q) ∨ cap ≠ some q)
  | castle src f => src ≠ f.kingHome ∧ pos.Pseudo (.castle f)

theorem ply_encode {fac : Factory} {ply : Ply} (h : fac.ply = some ply) : fac.word = ply.encode := by
  rcases fac with ⟨_, _, _ | _⟩ | ⟨_, _, _ | _, _ | _⟩ | _ | ⟨_, _, _ | _⟩ |
    ⟨_, _, _ | _, _ | _⟩ | ⟨src, f⟩ <;> try (cases h; done)
  · cases h; rfl
  · cases h; rfl
  · cases h; rfl
  · cases h; rfl
  · cases h; rfl
  · simp only [Factory.ply] at h
    split at h
    · rename_i e
      cases h
      rw [e]
      rfl
    · cases h

/-- The words of calls that stand for no move of the rules are no words of moves. -/
theorem ply_of_word {fac : Factory} {ply : Ply} (h : fac.word = ply.encode) : fac.ply = some ply := by
  have hsome : ∀ ply', fac.ply = some ply' → fac.ply = some ply := by
    intro ply' h'
    rw [h', Ply.encode_injective ((ply_encode h').symm.trans h)]
  have hpiece : fac.word.promoteTo = some ply.codedPiece := by rw [h, Ply.promoteTo_encode]
  have hcap : fac.word.isCapture = (ply.captured.isSome && !ply.isEp) := by
    rw [h, Ply.isCapture_encode]
  have hcapPtype : fac.word.capPtype = ply.captured := by rw [h, Ply.capPtype_encode]
  cases fac with
  | normal src dst p =>
    cases p with
    | none =>
      rw [word, Move.promoteTo_pack _ _ _ _ _ (by decide)] at hpiece
      cases hpiece
    | some p => exact hsome _ rfl
  | capture src dst p cap =>
    rw [word, Move.promoteTo_pack _ _ _ _ _ (by decide)] at hpiece
    subst hpiece
    cases cap with
    | none =>
      rw [word, Move.capPtype_pack _ _ _ _ _ (by decide)] at hcapPtype
      rw [← hcapPtype, word, Move.isCapture, Move.hasFlag,
        Move.flags_pack _ _ _ _ _ (by decide)] at hcap
      cases hcap
    | some q => exact hsome _ rfl
  | enpassant src dst => exact hsome _ rfl
  | promotion src dst p =>
    cases p with
    | none =>
      rw [word, Move.promoteTo_pack _ _ _ _ _ (by decide)] at hpiece
      cases hpiece
    | some p => exact hsome _ rfl
  | promotionCapture src dst p cap =>
    rw [word, Move.promoteTo_pack _ _ _ _ _ (by decide)] at hpiece
    subst hpiece
    cases cap with
    | none =>
      rw [word, Move.capPtype_pack _ _ _ _ _ (by decide)] at hcapPtype
      rw [← hcapPtype, word, Move.isCapture, Move.hasFlag,
        Move.flags_pack _ _ _ _ _ (by decide)] at hcap
      cases hcap
    | some q => exact hsome _ rfl
  | castle src f =>
    have hc : ply.isCastling = true := by
      rw [← Ply.isCastle_encode, ← h, word, Move.isCastle, Move.hasFlag,
        Move.flags_pack _ _ _ _ _ (by decide)]
      rfl
    have hsrc : src = ply.src := by
      rw [← Ply.fromSq_encode, ← h, word, Move.fromSq_pack _ _ _ _ _ (by decide)]
    have hdst : f.kingDest = ply.dst := by
      rw [← Ply.toSq_encode, ← h, word, Move.toSq_pack _ _ _ _ _ (by decide)]
    cases ply with
    | castle g =>
      have hfg : f = g := by
        simp only [Ply.dst] at hdst
        cases f <;> cases g <;> first | rfl | exact absurd hdst (by decide)
      subst hfg
      exact hsome _ (if_pos hsrc)
    | _ => cases hc

theorem word_eq_encode (fac : Factory) (ply : Ply) :
    fac.word = ply.encode ↔ fac.ply = some ply := ⟨ply_of_word, ply_encode⟩

end Factory

/-- What is tested of a move that is neither null nor a castling move. -/
theorem isValidMove_pack (b : Board) (src dst : Square) (p cap : Option Piece) {fl : BitVec 16}
    (hfl : fl.toNat < 2 ^ 14) (hn : (fl &&& Move.moveNull != 0#16) = false)
    (hc : (fl &&& Move.moveCastle != 0#16) = false) :
    b.isValidMove (.pack (some src) (some dst) p cap fl) = true ↔
      (b.colorAt src = some b.side ∧ b.pieceAt src =
        if fl &&& Move.movePromotion != 0#16 then some .pawn else p) ∧
      (if fl &&& Move.moveCapture != 0#16 then b.colorAt dst = some b.side.xside
        else if fl &&& Move.moveEnpassant != 0#16 then some dst = b.epsq
        else b.colorAt dst = none) ∧
      ∃ p', b.pieceAt src = some p' ∧
        if p' = .pawn then
          if (fl &&& Move.moveCapture != 0#16) || (fl &&& Move.moveEnpassant != 0#16) then
            mem (b.pawnCaptures src b.side) dst = true
          else mem (b.pawnNoncaptures src b.side) dst = true
        else mem (b.attacksOf p' b.side src) dst = true := by
  have hflags := Move.flags_pack p cap fl (some src) (some dst) hfl
  have hsrc := Move.fromSq_pack src dst p cap fl hfl
  have hdst := Move.toSq_pack src dst p cap fl hfl
  have hpt := Move.ptype_pack src dst p cap fl hfl
  unfold Board.isValidMove Board.destinationValid Board.movementValid
  simp only [Move.isNull, Move.isCastle, Move.isCapture, Move.isEnpassant, Move.hasFlag, hflags,
    hsrc, hdst, hpt, hn, hc, Bool.false_eq_true, if_false, Bool.and_eq_true, decide_eq_true_eq]
  rw [and_assoc]
  refine and_congr_right fun _ => and_congr ?_ ?_
  · split
    · exact decide_eq_true_iff
    · split <;> exact decide_eq_true_iff
  · cases hp : b.pieceAt src with
    | none => simp
    | some p' =>
      cases p' <;> simp only [Option.some.injEq, exists_eq_left', reduceCtorEq, if_false, if_true,
        Bitboard.testbit]
      split <;> rfl

section Valid

variable [k : Build] {b : Board} {pos : Position}

theorem Sim.colorAt_iff (h : Sim b pos) (sq : Square) (c : Color) :
    b.colorAt sq = some c ↔ ∃ p, pos.man sq = some (c, p) := by
  rw [h.consistent.colorAt_eq]
  cases pos.man sq with
  | none => simp
  | some m =>
    obtain ⟨c', p⟩ := m
    simp [eq_comm]

theorem Sim.colorAt_none (h : Sim b pos) (sq : Square) :
    b.colorAt sq = none ↔ pos.man sq = none := by
  rw [h.consistent.colorAt_eq, Option.map_eq_none_iff]

theorem Sim.origin_iff (h : Sim b pos) (sq : Square) (p : Option Piece) :
    (b.colorAt sq = some b.side ∧ b.pieceAt sq = p) ↔
      ∃ p', p = some p' ∧ pos.man sq = some (pos.side, p') := by
  rw [h.colorAt_iff, h.consistent.pieceAt_eq, h.side]
  constructor
  · rintro ⟨⟨p', hm⟩, rfl⟩
    exact ⟨p', by rw [hm]; rfl, hm⟩
  · rintro ⟨p', rfl, hm⟩
    exact ⟨⟨p', hm⟩, by rw [hm]; rfl⟩

/-- The lookups of the check are the moves of the piece. -/
theorem Sim.lookup_iff (h : Sim b pos) (hv : Valid pos) {src dst : Square} {p : Piece}
    {cap : Option Piece} (hm : pos.man src = some (pos.side, p))
    (hd : pos.man dst = cap.map (fun q => (pos.side.xside, q))) :
    (if p = .pawn then
        if cap.isSome = true then mem (b.pawnCaptures src b.side) dst = true
        else mem (b.pawnNoncaptures src b.side) dst = true
      else mem (b.attacksOf p b.side src) dst = true) ↔
      dst ∈ targets pos.man pos.side p cap.isSome src := by
  rw [h.side]
  by_cases hp : p = .pawn
  · subst hp
    have hrank : rnk src ≠ lastRank pos.side := by
      have := hv.pawns _ _ hm
      cases hc : pos.side <;> simp only [lastRank, ne_eq] <;> omega
    rw [if_pos rfl]
    cases cap with
    | none =>
      simp only [Option.isSome_none, Bool.false_eq_true, if_false]
      rw [mem_pawnNoncaptures h.consistent _ hrank, targets_push]
    | some q =>
      simp only [Option.isSome_some, if_true]
      rw [mem_pawnCaptures h.consistent, targets_capture, and_iff_left]
      left
      rw [hd]
      exact Option.some_ne_none _
  · rw [if_neg hp, mem_attacksOf h.consistent hp, targets_piece hp]

/-- What is tested of a capture and of a quiet move. -/
theorem Sim.carries_iff (h : Sim b pos) (hv : Valid pos) (src dst : Square) (p : Option Piece)
    (capturing : Bool) :
    ((b.colorAt src = some b.side ∧ b.pieceAt src = p) ∧
      (if capturing then b.colorAt dst = some b.side.xside else b.colorAt dst = none) ∧
      ∃ p', b.pieceAt src = some p' ∧
        if p' = .pawn then
          if capturing then mem (b.pawnCaptures src b.side) dst = true
          else mem (b.pawnNoncaptures src b.side) dst = true
        else mem (b.attacksOf p' b.side src) dst = true) ↔
      ∃ p' cap, p = some p' ∧ cap.isSome = capturing ∧ pos.Carries src dst p' cap := by
  have hdest : ∀ cap : Option Piece, cap.isSome = capturing →
      pos.man dst = cap.map (fun q => (pos.side.xside, q)) →
      (if capturing then b.colorAt dst = some b.side.xside else b.colorAt dst = none) := by
    rintro cap rfl hd
    cases cap with
    | none =>
      simp only [Option.isSome_none, Bool.false_eq_true, if_false]
      exact (h.colorAt_none dst).mpr hd
    | some q =>
      simp only [Option.isSome_some, if_true]
      rw [h.side]
      exact (h.colorAt_iff dst _).mpr ⟨q, hd⟩
  rw [h.origin_iff]
  constructor
  · rintro ⟨⟨p', rfl, hm⟩, hd, p'', hp'', hl⟩
    have hp : b.pieceAt src = some p' := by
      rw [h.consistent.pieceAt_eq, hm]
      rfl
    obtain rfl : p' = p'' := Option.some.inj (hp.symm.trans hp'')
    obtain ⟨cap, rfl, hcap⟩ : ∃ cap : Option Piece, cap.isSome = capturing ∧
        pos.man dst = cap.map (fun q => (pos.side.xside, q)) := by
      cases capturing with
      | false =>
        simp only [Bool.false_eq_true, if_false] at hd
        exact ⟨none, rfl, (h.colorAt_none dst).mp hd⟩
      | true =>
        simp only [if_true] at hd
        rw [h.side, h.colorAt_iff] at hd
        obtain ⟨q, hq⟩ := hd
        exact ⟨some q, rfl, hq⟩
    exact ⟨p', cap, rfl, rfl, hm, hcap, (h.lookup_iff hv hm hcap).mp hl⟩
  · rintro ⟨p', cap, rfl, rfl, hm, hd, ht⟩
    refine ⟨⟨p', rfl, hm⟩, hdest cap rfl hd, p', ?_, (h.lookup_iff hv hm hd).mpr ht⟩
    rw [h.consistent.pieceAt_eq, hm]
    rfl

/-- Castling is tested as it is generated. -/
theorem Sim.castlingSwitch_iff (h : Sim b pos) (hs : Sane pos) {f : CastleFlag}
    (hf : f.color = pos.side) :
    (b.inCheck = false ∧ b.castlingSwitch f.kingDest = true) ↔ pos.Pseudo (.castle f) := by
  have hray : ∀ s t, rayBb s t = rayBb t s := by
    intro s t
    apply WordSet.ext
    intro u
    rw [Bool.eq_iff_iff, mem_rayBb, mem_rayBb, between_comm]
  have hswitch : b.castlingSwitch f.kingDest = b.mayCastle f := by
    unfold Board.castlingSwitch Board.castlingValid Board.mayCastle
    rw [h.side, ← hf]
    cases f with
    | wk => rfl
    | wq => rw [hray a1 e1]; rfl
    | bk => rfl
    | bq => rw [hray a8 e8]; rfl
  rw [hswitch, h.mayCastle f, ← listed_iff_pseudo hs, ← Bool.not_eq_true,
    h.inCheck (hs.king_exists _)]
  simp only [Position.Listed, hf, true_and]
  constructor
  · rintro ⟨h1, h2, h3, h4⟩
    exact ⟨h2, h3, h1, h4⟩
  · rintro ⟨h2, h3, h1, h4⟩
    exact ⟨h1, h2, h3, h4⟩

/-- **What `is_valid_move` accepts.** -/
theorem Sim.isValidMove_word (h : Sim b pos) (hs : Sane pos) (fac : Factory)
    (hf : fac.Allowed pos.side) : b.isValidMove fac.word = true ↔ fac.Accepted pos := by
  have hcarries := h.carries_iff hs.toValid
  cases fac with
  | normal src dst p =>
    rw [Factory.word, isValidMove_pack _ _ _ _ _ (by decide) (by decide) (by decide)]
    refine (hcarries src dst p false).trans ?_
    simp [Factory.Accepted]
  | capture src dst p cap =>
    rw [Factory.word, isValidMove_pack _ _ _ _ _ (by decide) (by decide) (by decide)]
    refine (hcarries src dst p true).trans ?_
    simp [Factory.Accepted, Option.isSome_iff_exists]
  | enpassant src dst =>
    rw [Factory.word, isValidMove_pack _ _ _ _ _ (by decide) (by decide) (by decide)]
    change (b.colorAt src = some b.side ∧ b.pieceAt src = some .pawn) ∧ some dst = b.epsq ∧
      (∃ p', b.pieceAt src = some p' ∧ if p' = .pawn then
        mem (b.pawnCaptures src b.side) dst = true
        else mem (b.attacksOf p' b.side src) dst = true) ↔ _
    rw [h.origin_iff, h.ep, h.side]
    constructor
    · rintro ⟨⟨p, hpawn, hm⟩, he, p', hp', hl⟩
      obtain rfl : .pawn = p := Option.some.inj hpawn
      have hp : b.pieceAt src = some .pawn := by
        rw [h.consistent.pieceAt_eq, hm]
        rfl
      obtain rfl : .pawn = p' := Option.some.inj (hp.symm.trans hp')
      rw [if_pos rfl, mem_pawnCaptures h.consistent] at hl
      exact ⟨hm, he.symm, hl.1⟩
    · rintro ⟨hm, he, hr⟩
      refine ⟨⟨.pawn, rfl, hm⟩, he.symm, .pawn, ?_, ?_⟩
      · rw [h.consistent.pieceAt_eq, hm]
        rfl
      · rw [if_pos rfl, mem_pawnCaptures h.consistent, h.ep]
        exact ⟨hr, Or.inr he⟩
  | promotion src dst p =>
    rw [Factory.word, isValidMove_pack _ _ _ _ _ (by decide) (by decide) (by decide)]
    refine (hcarries src dst (some .pawn) false).trans ?_
    simp [Factory.Accepted]
  | promotionCapture src dst p cap =>
    rw [Factory.word, isValidMove_pack _ _ _ _ _ (by decide) (by decide) (by decide)]
    refine (hcarries src dst (some .pawn) true).trans ?_
    simp [Factory.Accepted, Option.isSome_iff_exists]
  | castle src f =>
    have hword : b.isValidMove (Factory.castle src f).word =
        (!b.inCheck && b.castlingSwitch f.kingDest) := by
      have hflags : (Factory.castle src f).word.flags = Move.moveCastle :=
        Move.flags_pack _ _ _ _ _ (by decide)
      have hdst : (Factory.castle src f).word.toSq = f.kingDest :=
        Move.toSq_pack _ _ _ _ _ (by decide)
      unfold Board.isValidMove
      rw [Move.isNull, Move.isCastle, Move.hasFlag, Move.hasFlag, hflags, hdst]
      rfl
    rw [hword, Bool.and_eq_true, Bool.not_eq_true', h.castlingSwitch_iff hs hf.2]
    rfl

/-- **What the generator lists.** -/
theorem Sim.word_mem_generateMoves (h : Sim b pos) (hs : Sane pos) (hm : MaterialOk pos)
    (fac : Factory) :
    fac.word ∈ (b.generateMoves true .empty).moves ↔ ∃ ply, fac.ply = some ply ∧ pos.Pseudo ply := by
  rw [h.mem_generateMoves hs hm]
  refine exists_congr fun ply => ?_
  rw [Factory.word_eq_encode]
  exact and_congr_right fun _ => and_iff_left_of_imp chosen_of_pseudo

end Valid

namespace Factory

variable {pos : Position}

/-- The piece and the captured piece of a move are what stands there. -/
theorem cap_unique {src dst : Square} {p p' : Piece} {cap cap' : Option Piece}
    (h : pos.Carries src dst p cap) (h' : pos.Carries src dst p' cap') : p = p' ∧ cap = cap' := by
  refine ⟨congrArg Prod.snd (Option.some.inj (h.1.symm.trans h'.1)), ?_⟩
  have e := h.2.1.symm.trans h'.2.1
  cases cap <;> cases cap' <;> first | rfl | (cases e; done) | skip
  exact congrArg Option.some (congrArg Prod.snd (Option.some.inj e))

/-- A well-formed call for a pseudo-legal move is accepted. -/
theorem accepted_of_ply {fac : Factory} {ply : Ply} (h : fac.ply = some ply)
    (hp : pos.Pseudo ply) : fac.Accepted pos := by
  cases fac with
  | normal src dst p =>
    cases p <;> cases h
    exact ⟨_, rfl, hp.1⟩
  | capture src dst p cap =>
    cases p <;> cases cap <;> cases h
    exact ⟨_, _, rfl, hp.1⟩
  | enpassant src dst =>
    cases h
    exact hp
  | promotion src dst p =>
    cases p <;> cases h
    exact hp.1
  | promotionCapture src dst p cap =>
    cases p <;> cases cap <;> cases h
    exact ⟨_, hp.1⟩
  | castle src f =>
    simp only [Factory.ply] at h
    split at h <;> cases h
    exact hp

theorem malformed_normal {src dst p} : (Factory.normal src dst p).Malformed pos ↔
    (Factory.normal src dst p).Accepted pos ∧
      ¬ ∃ ply, (Factory.normal src dst p).ply = some ply ∧ pos.Pseudo ply := by
  constructor
  · rintro ⟨rfl, hl, hc⟩
    refine ⟨⟨.pawn, rfl, hc⟩, ?_⟩
    rintro ⟨ply, e, hp⟩
    cases e
    exact hp.2 ⟨rfl, hl⟩
  · rintro ⟨⟨p', rfl, hc⟩, hno⟩
    by_contra hmal
    refine hno ⟨_, rfl, hc, ?_⟩
    rintro ⟨rfl, hl⟩
    exact hmal ⟨rfl, hl, hc⟩

theorem malformed_capture {src dst p cap} : (Factory.capture src dst p cap).Malformed pos ↔
    (Factory.capture src dst p cap).Accepted pos ∧
      ¬ ∃ ply, (Factory.capture src dst p cap).ply = some ply ∧ pos.Pseudo ply := by
  constructor
  · rintro ⟨p', q, rfl, hc, hbad⟩
    refine ⟨⟨p', q, rfl, hc⟩, ?_⟩
    rintro ⟨ply, e, hp⟩
    cases cap with
    | none => cases e
    | some q' =>
      cases e
      obtain ⟨_, hq⟩ := cap_unique hc hp.1
      rcases hbad with hne | hl
      · exact hne hq.symm
      · exact hp.2 hl
  · rintro ⟨⟨p', q, rfl, hc⟩, hno⟩
    refine ⟨p', q, rfl, hc, ?_⟩
    by_contra hgood
    obtain ⟨h1, h2⟩ := not_or.mp hgood
    obtain rfl := not_not.mp h1
    exact hno ⟨_, rfl, hc, h2⟩

theorem malformed_enpassant {src dst} : (Factory.enpassant src dst).Malformed pos ↔
    (Factory.enpassant src dst).Accepted pos ∧
      ¬ ∃ ply, (Factory.enpassant src dst).ply = some ply ∧ pos.Pseudo ply := by
  constructor
  · exact False.elim
  · rintro ⟨hp, hno⟩
    exact hno ⟨_, rfl, hp⟩

theorem malformed_promotion {src dst p} : (Factory.promotion src dst p).Malformed pos ↔
    (Factory.promotion src dst p).Accepted pos ∧
      ¬ ∃ ply, (Factory.promotion src dst p).ply = some ply ∧ pos.Pseudo ply := by
  constructor
  · rintro ⟨hc, hbad⟩
    refine ⟨hc, ?_⟩
    rintro ⟨ply, e, hp⟩
    cases p with
    | none => cases e
    | some p =>
      cases e
      rcases hbad with hl | hq
      · exact hl hp.2.1
      · exact hq p hp.2.2 rfl
  · rintro ⟨hc, hno⟩
    refine ⟨hc, ?_⟩
    by_contra hgood
    obtain ⟨h1, h2⟩ := not_or.mp hgood
    push Not at h2
    obtain ⟨q, hq, rfl⟩ := h2
    exact hno ⟨_, rfl, hc, not_not.mp h1, hq⟩

theorem malformed_promotionCapture {src dst p cap} : (Factory.promotionCapture src dst p cap).Malformed pos ↔
    (Factory.promotionCapture src dst p cap).Accepted pos ∧
      ¬ ∃ ply, (Factory.promotionCapture src dst p cap).ply = some ply ∧ pos.Pseudo ply := by
  constructor
  · rintro ⟨q, hc, hbad⟩
    refine ⟨⟨q, hc⟩, ?_⟩
    rintro ⟨ply, e, hp⟩
    cases p with
    | none => cases e
    | some p =>
      cases cap with
      | none => cases e
      | some q' =>
        cases e
        obtain ⟨_, hq⟩ := cap_unique hc hp.1
        rcases hbad with hl | hpr | hne
        · exact hl hp.2.1
        · exact hpr p hp.2.2 rfl
        · exact hne hq.symm
  · rintro ⟨⟨q, hc⟩, hno⟩
    refine ⟨q, hc, ?_⟩
    by_contra hgood
    obtain ⟨h1, h2⟩ := not_or.mp hgood
    obtain ⟨h2, h3⟩ := not_or.mp h2
    push Not at h2
    obtain ⟨p', hp', rfl⟩ := h2
    obtain rfl := not_not.mp h3
    exact hno ⟨_, rfl, hc, not_not.mp h1, hp'⟩

theorem malformed_castle {src f} : (Factory.castle src f).Malformed pos ↔
    (Factory.castle src f).Accepted pos ∧
      ¬ ∃ ply, (Factory.castle src f).ply = some ply ∧ pos.Pseudo ply := by
  constructor
  · rintro ⟨hne, hp⟩
    refine ⟨hp, ?_⟩
    rintro ⟨ply, e, _⟩
    rw [Factory.ply, if_neg hne] at e
    cases e
  · rintro ⟨hp, hno⟩
    refine ⟨fun e => hno ⟨.castle f, ?_, hp⟩, hp⟩
    rw [Factory.ply, if_pos e]

/-- **The calls that are accepted and not listed.** -/
theorem malformed_iff (fac : Factory) :
    fac.Malformed pos ↔ fac.Accepted pos ∧ ¬ ∃ ply, fac.ply = some ply ∧ pos.Pseudo ply := by
  cases fac with
  | normal => exact malformed_normal
  | capture => exact malformed_capture
  | enpassant => exact malformed_enpassant
  | promotion => exact malformed_promotion
  | promotionCapture => exact malformed_promotionCapture
  | castle => exact malformed_castle

end Factory

section Exactness

variable [k : Build] {b : Board} {pos : Position}

theorem Sim.isValidMove_exact (h : Sim b pos) (hs : Sane pos) (hm : MaterialOk pos) {fac : Factory}
    (hf : fac.Allowed pos.side) :
    (b.isValidMove fac.word = true ↔ fac.word ∈ (b.generateMoves true .empty).moves) ↔
      ¬ fac.Malformed pos := by
  rw [h.isValidMove_word hs fac hf, h.word_mem_generateMoves hs hm, fac.malformed_iff]
  constructor
  · rintro hiff ⟨ha, hno⟩
    exact hno (hiff.mp ha)
  · intro hno
    exact ⟨fun ha => not_not.mp fun hn => hno ⟨ha, hn⟩, fun ⟨_, e, hp⟩ => Factory.accepted_of_ply e hp⟩

/-- **When the validity check is exact**: on every board of a game, for every
call of a factory, unless the call is malformed. -/
theorem reached_isValidMove_exact (h : Reached b) (fac : Factory) (hf : fac.Allowed b.side) :
    (b.isValidMove fac.word = true ↔ fac.word ∈ (b.generateMoves true .empty).moves) ↔
      ¬ fac.Malformed b.abs := by
  obtain ⟨hsim, hp⟩ := h.sim_abs
  exact hsim.isValidMove_exact hp.sane hp.materialOk hf

end Exactness

/-- On the opening board a promotion of the king's pawn to a queen on `E4` passes the check. -/
theorem isValidMove_early_promotion : ∃ b, @Reached sampleBuild b ∧
    @Board.isValidMove b (Factory.promotion 12 28 (some .queen)).word = true ∧
    (Factory.promotion 12 28 (some .queen)).word ∉
      (@Board.generateMoves sampleBuild b true .empty).moves := by
  let _ := sampleBuild
  obtain ⟨b, hb, hsim⟩ := parseFen_opening
  have hmal : (Factory.promotion 12 28 (some .queen)).Malformed opening :=
    ⟨⟨by decide +kernel, by decide +kernel, by decide +kernel⟩, Or.inl (by decide)⟩
  obtain ⟨ha, hno⟩ := (Factory.malformed_iff _).mp hmal
  refine ⟨b, .opening hb,
    (hsim.isValidMove_word sane_opening (.promotion 12 28 (some .queen)) trivial).mpr ha, ?_⟩
  rw [hsim.word_mem_generateMoves sane_opening materialOk_opening]
  exact hno

/-- The check is exact for the advance of the king's pawn. -/
theorem isValidMove_exact_advance : ∃ b, @Reached sampleBuild b ∧
    (b.isValidMove (Factory.normal 12 28 (some .pawn)).word = true ↔
      (Factory.normal 12 28 (some .pawn)).word ∈
        (@Board.generateMoves sampleBuild b true .empty).moves) := by
  let _ := sampleBuild
  obtain ⟨b, hb, hsim⟩ := parseFen_opening
  refine ⟨b, .opening hb,
    (reached_isValidMove_exact (.opening hb) (.normal 12 28 (some .pawn)) trivial).mpr ?_⟩
  rw [hsim.abs_eq]
  rintro ⟨_, hl, _⟩
  exact absurd hl (by decide)

end HoiChess.Chess
