import HoiChess.Chess.Validity

/-!
# The fast move parser

`do_parse_move_1` turns coordinate notation or SAN into a move word, and
`parse_move_1` keeps the word if it passes the validity and the legality
check.  `scanText` reads the characters, `Board.readMove` turns what was read
into the factory call that the source makes.  The result is a legal move
unless the text misnames a promotion (`reached_parseMove1_exact`): a pawn move
to the last rank without a new piece, or one elsewhere with a new piece, gets
through, because the validity check does not look at the rank.
-/

namespace HoiChess.Chess

open WordSet Grid Rules

/-! ## The characters -/

/-- `c - 'a'` for a file letter. -/
def fileChar (c : Char) : Option (Fin 8) :=
  if h : 'a'.toNat ≤ c.toNat ∧ c.toNat ≤ 'h'.toNat then
    some ⟨c.toNat - 'a'.toNat, by
      have : 'a'.toNat = 97 := rfl
      have : 'h'.toNat = 104 := rfl
      omega⟩
  else none

/-- `c - '1'` for a rank digit. -/
def rankChar (c : Char) : Option (Fin 8) :=
  if h : '1'.toNat ≤ c.toNat ∧ c.toNat ≤ '8'.toNat then
    some ⟨c.toNat - '1'.toNat, by
      have : '1'.toNat = 49 := rfl
      have : '8'.toNat = 56 := rfl
      omega⟩
  else none

/-- The promotion letters of coordinate notation. -/
def promoLower : Char → Option Piece
  | 'n' => some .knight
  | 'b' => some .bishop
  | 'r' => some .rook
  | 'q' => some .queen
  | _ => none

/-- The promotion letters of SAN. -/
def promoUpper : Char → Option Piece
  | 'N' => some .knight
  | 'B' => some .bishop
  | 'R' => some .rook
  | 'Q' => some .queen
  | _ => none

theorem promoLower_mem {c : Char} {q : Piece} (h : promoLower c = some q) :
    q ∈ promotionPieces := by
  unfold promoLower at h
  split at h <;> cases h <;> decide

theorem promoUpper_mem {c : Char} {q : Piece} (h : promoUpper c = some q) :
    q ∈ promotionPieces := by
  unfold promoUpper at h
  split at h <;> cases h <;> decide

/-- The piece letters of SAN. -/
def pieceChar : Char → Option Piece
  | 'N' => some .knight
  | 'B' => some .bishop
  | 'R' => some .rook
  | 'Q' => some .queen
  | 'K' => some .king
  | _ => none

/-- What the characters of a move text say, before the board is looked at. -/
inductive MoveText where
  | castleShort
  | castleLong
  /-- Origin, destination and the fifth character, if there is one. -/
  | coordinate (src dst : Square) (suffix : Option Char)
  /-- File of origin, destination and the character after `=`. -/
  | pawnCapture (f : Fin 8) (dst : Square) (suffix : Option Char)
  | pawnPush (dst : Square) (suffix : Option Char)
  /-- Piece, file and rank of origin as far as given, capture mark and destination. -/
  | piece (p : Piece) (f r : Option (Fin 8)) (capture : Bool) (dst : Square)
  | invalid
  deriving DecidableEq

/-- `if (*p >= 'a' && *p <= 'h') { .. p++; }` and its companion for digits. -/
def scanCoord (coord : Char → Option (Fin 8)) (s : List Char) : Option (Fin 8) × List Char :=
  match coord (s.getD 0 ' ') with
  | some i => (some i, s.drop 1)
  | none => (none, s)

/-- The text after the piece letter. -/
def scanPiece (p : Piece) (s : List Char) : MoveText :=
  let (f1, s) := scanCoord fileChar s
  let (r1, s) := scanCoord rankChar s
  let capture := s.getD 0 ' ' = 'x'
  let s := if capture then s.drop 1 else s
  let (f2, s) := scanCoord fileChar s
  let (r2, _) := scanCoord rankChar s
  match f2, r2 with
  | some f2, some r2 => .piece p f1 r1 capture (mkSquare r2 f2)
  | none, none =>
    match f1, r1 with
    | some f1, some r1 => .piece p none none capture (mkSquare r1 f1)
    | _, _ => .invalid
  | _, _ => .invalid

/-- The character after the `=` at a position, if there is one there. -/
def scanSuffix (s : List Char) (i : Nat) : Option Char :=
  if s.getD i ' ' = '=' then some (s.getD (i + 1) ' ') else none

/-- A file letter and a rank digit. -/
def scanSquare (s : List Char) (i : Nat) : Option Square := do
  let f ← fileChar (s.getD i ' ')
  let r ← rankChar (s.getD (i + 1) ' ')
  return mkSquare r f

/-- Coordinate notation, with or without a fifth character. -/
def scanCoordinate (s : List Char) : Option MoveText := do
  let src ← scanSquare s 0
  let dst ← scanSquare s 2
  if s.length = 4 then some (.coordinate src dst none)
  else if s.length = 5 then some (.coordinate src dst (some (s.getD 4 ' ')))
  else none

/-- A pawn move in SAN, from the file `f`. -/
def scanPawn (f : Fin 8) (s : List Char) : MoveText :=
  match (if s.getD 1 ' ' = 'x' then scanSquare s 2 else none) with
  | some dst => .pawnCapture f dst (scanSuffix s 4)
  | none =>
    match rankChar (s.getD 1 ' ') with
    | some r => .pawnPush (mkSquare r f) (scanSuffix s 2)
    | none => .invalid

/-- The text, padded with blanks. -/
def scanText (s : List Char) : MoveText :=
  if s ∈ ["O-O".toList, "O-O+".toList, "O-O#".toList] then .castleShort
  else if s ∈ ["O-O-O".toList, "O-O-O+".toList, "O-O-O#".toList] then .castleLong
  else
    match scanCoordinate s with
    | some t => t
    | none =>
      match fileChar (s.getD 0 ' ') with
      | some f => scanPawn f s
      | none =>
        match pieceChar (s.getD 0 ' ') with
        | some p => scanPiece p (s.drop 1)
        | none => .invalid

/-! ## The board -/

/-- `SQUARE(rnk, fil)` for a rank that may lie off the board; a move word keeps
the low six bits of the number. -/
def wrapSquare (rnk fil : Int) : Square :=
  ⟨((rnk * 8 + fil) % 64).toNat, by omega⟩

namespace Board

section Pinned

variable [k : Build] (b : Board)

/-- One of the two loops of `pinned`: a single man between a slider and `dst`. -/
def pinnedBy (dst : Square) (atkside : Color) (p : Piece) (ret : Bitboard) : Bitboard :=
  (squares (b.pos atkside p ||| b.pos atkside .queen)).foldl (fun ret src =>
    let tmp := attackBb p dst &&& rayBb src dst &&& b.occupied
    if Bitboard.any (tmp &&& b.getPieces atkside) then ret
    else if Bitboard.popcnt tmp = 1 then
      match k.firstbit.pick tmp with
      | none => ret
      | some sq => Bitboard.setbit ret sq
    else ret) ret

def pinned (dst : Square) (side : Color) : Bitboard :=
  b.pinnedBy dst side.xside .rook (b.pinnedBy dst side.xside .bishop nullBitboard)

end Pinned

section Read

variable [k : Build] (b : Board)

def castleCall (wf bf : CastleFlag) : Option Factory :=
  if b.side = .white ∧ b.hasFlag wf then some (.castle wf.kingHome wf)
  else if b.side = .black ∧ b.hasFlag bf then some (.castle bf.kingHome bf)
  else none

/-- The castling move that a king move in coordinate notation stands for. -/
def coordinateCastle (src dst : Square) : Option CastleFlag :=
  if b.side = .white ∧ b.hasFlag .wk ∧ src = e1 ∧ dst = g1 then some .wk
  else if b.side = .white ∧ b.hasFlag .wq ∧ src = e1 ∧ dst = c1 then some .wq
  else if b.side = .black ∧ b.hasFlag .bk ∧ src = e8 ∧ dst = g8 then some .bk
  else if b.side = .black ∧ b.hasFlag .bq ∧ src = e8 ∧ dst = c8 then some .bq
  else none

def coordinateCall (src dst : Square) (suffix : Option Char) : Option Factory :=
  let ptype := b.pieceAt src
  let capPtype := b.pieceAt dst
  match (if ptype = some .king then b.coordinateCastle src dst else none) with
  | some f => some (.castle f.kingHome f)
  | none =>
    match suffix with
    | some c => (promoLower c).map fun q =>
      if capPtype ≠ none then .promotionCapture src dst (some q) capPtype
      else .promotion src dst (some q)
    | none =>
      if capPtype ≠ none then some (.capture src dst ptype capPtype)
      else if some dst = b.epsq then some (.enpassant src dst)
      else some (.normal src dst ptype)

def captureCall (f : Fin 8) (dst : Square) (suffix : Option Char) : Option Factory :=
  let src := wrapSquare (if b.side = .white then rnk dst - 1 else rnk dst + 1) f.val
  let capPtype := b.pieceAt dst
  match suffix with
  | some c => (promoUpper c).map fun q => .promotionCapture src dst (some q) capPtype
  | none =>
    if some dst = b.epsq then some (.enpassant src dst)
    else some (.capture src dst (some .pawn) capPtype)

/-- The rank from which a pawn advances to `dst`.  The second `piece_at` has its
parenthesis misplaced and asks for the square `8 + fil == PAWN`, that is `A1`. -/
def pushRank (dst : Square) : Option Int :=
  if b.side = .white then
    if rnk dst = 3 then
      if b.pieceAt (wrapSquare 2 (fil dst)) = some .pawn then some 2
      else if b.pieceAt a1 ≠ some .pawn then some 1
      else none
    else some (rnk dst - 1)
  else
    if rnk dst = 4 then
      if b.pieceAt (wrapSquare 5 (fil dst)) = some .pawn then some 5
      else if b.pieceAt a1 ≠ some .pawn then some 6
      else none
    else some (rnk dst + 1)

def pushCall (dst : Square) (suffix : Option Char) : Option Factory :=
  match b.pushRank dst with
  | none => none
  | some r =>
    let src := wrapSquare r (fil dst)
    match suffix with
    | some c => (promoUpper c).map fun q => .promotion src dst (some q)
    | none => some (.normal src dst (some .pawn))

/-- The men of a kind that reach `dst` and agree with what is given of the origin. -/
def origins (p : Piece) (f r : Option (Fin 8)) (dst : Square) : Bitboard :=
  let bb := b.attacksOf p b.side dst &&& b.pos b.side p
  let bb := match r with
    | some r => bb &&& rankBb r
    | none => bb
  match f with
  | some f => bb &&& fileBb f
  | none => bb

/-- Among several men the first that is not pinned, or is pinned on its way. -/
def origin (p : Piece) (f r : Option (Fin 8)) (dst : Square) : Option Square :=
  match f, r with
  | some f, some r => some (mkSquare r f)
  | _, _ =>
    let bb := b.origins p f r dst
    if Bitboard.popcnt bb = 0 then none
    else if Bitboard.popcnt bb = 1 then k.firstbit.pick bb
    else
      match b.getKing b.side with
      | none => none
      | some king =>
        let pins := b.pinned king b.side
        let ray := rayBb dst king
        (squares bb).find? fun sq =>
          Bitboard.testbit pins sq && Bitboard.testbit ray sq || !Bitboard.testbit pins sq

def pieceCall (p : Piece) (f r : Option (Fin 8)) (capture : Bool) (dst : Square) :
    Option Factory :=
  match b.origin p f r dst with
  | none => none
  | some src =>
    if b.pieceAt src ≠ some p then none
    else
      let capPtype := b.pieceAt dst
      if capture ∧ capPtype = none then none
      else if ¬ capture ∧ capPtype ≠ none then none
      else if capPtype ≠ none then some (.capture src dst (some p) capPtype)
      else some (.normal src dst (some p))

/-- The call of a factory to which a text leads; none where `NO_MOVE` is returned. -/
def readMove : MoveText → Option Factory
  | .castleShort => b.castleCall .wk .bk
  | .castleLong => b.castleCall .wq .bq
  | .coordinate src dst suffix => b.coordinateCall src dst suffix
  | .pawnCapture f dst suffix => b.captureCall f dst suffix
  | .pawnPush dst suffix => b.pushCall dst suffix
  | .piece p f r capture dst => b.pieceCall p f r capture dst
  | .invalid => none

def doParseMove1 (s : List Char) : Move :=
  match b.readMove (scanText s) with
  | none => .noMove
  | some fac => fac.word

def parseMove1 (s : List Char) : Move :=
  let mov := b.doParseMove1 s
  if mov ≠ .noMove ∧ b.isValidMove mov ∧ b.isLegalMove mov then mov else .noMove

end Read

end Board

/-! ## Whether a pawn move leaves the king in check does not depend on the new piece -/

namespace Rules

theorem attacked_congr {man man' : Placement} {c : Color} (t : Square)
    (hmen : ∀ s p, man s = some (c, p) ↔ man' s = some (c, p))
    (hfree : ∀ s, man s = none ↔ man' s = none) : Attacked man c t ↔ Attacked man' c t := by
  refine exists_congr fun s => exists_congr fun p => ?_
  rw [hmen s p, mem_reach, mem_reach]
  simp only [hfree]

variable {pos : Position} {src dst : Square} {cap : Option Piece}

/-- The king of the moving side after a pawn move, whatever the pawn becomes. -/
theorem placement_pawn_king {q : Piece} (hq : q ≠ .king) (hc : pos.Carries src dst .pawn cap)
    (sq : Square) :
    pos.placement (.promote src dst q cap) sq = some (pos.side, .king) ↔
      pos.man sq = some (pos.side, .king) := by
  simp only [Position.placement]
  by_cases hd : sq = dst
  · subst hd
    rw [Function.update_self, hc.2.1]
    constructor
    · intro e
      exact absurd (congrArg Prod.snd (Option.some.inj e)) hq
    · intro e
      cases cap with
      | none => cases e
      | some p => exact absurd (congrArg Prod.fst (Option.some.inj e)) (xside_ne pos.side)
  · rw [Function.update_of_ne hd]
    by_cases hsrc : sq = src
    · subst hsrc
      rw [Function.update_self, hc.1]
      constructor
      · intro e
        cases e
      · intro e
        cases congrArg Prod.snd (Option.some.inj e)
    · rw [Function.update_of_ne hsrc]

theorem safe_promote {q : Piece} (hq : q ≠ .king) :
    (pos.apply (.promote src dst q cap)).Safe ↔ (pos.apply (.move src dst .pawn cap)).Safe := by
  have hplace : ∀ (m : Man), (m = (pos.side, .king) ∨ m.1 = pos.side.xside) → ∀ s,
      pos.placement (.promote src dst q cap) s = some m ↔
        pos.placement (.move src dst .pawn cap) s = some m := by
    intro m hm s
    simp only [Position.placement]
    by_cases hd : s = dst
    · subst hd
      rw [Function.update_self, Function.update_self]
      have hno : ∀ p, p ≠ .king → (pos.side, p) ≠ m := by
        rintro p hp rfl
        rcases hm with e | e
        · exact hp (congrArg Prod.snd e)
        · exact ne_xside pos.side e
      simp only [Option.some.injEq, hno q hq, hno .pawn (by decide)]
    · rw [Function.update_of_ne hd, Function.update_of_ne hd]
  have hfree : ∀ s, pos.placement (.promote src dst q cap) s = none ↔
      pos.placement (.move src dst .pawn cap) s = none := by
    intro s
    simp only [Position.placement]
    by_cases hd : s = dst
    · subst hd
      simp
    · rw [Function.update_of_ne hd, Function.update_of_ne hd]
  unfold Position.Safe
  refine forall_congr' fun sq => ?_
  have hking := hplace (pos.side, .king) (Or.inl rfl) sq
  have hatt := attacked_congr sq (fun s p => hplace (pos.side.xside, p) (Or.inr rfl) s) hfree
  change (_ = some (pos.side.xside.xside, Piece.king) → _) ↔
    (_ = some (pos.side.xside.xside, Piece.king) → _)
  rw [xside_xside]
  exact imp_congr hking (not_congr hatt)

end Rules

section Legality

variable [k : Build] {b : Board} {pos : Position} {src dst : Square} {cap : Option Piece}

/-- **The legality check of a pawn move, with whatever piece the word says.** -/
theorem Sim.isLegalMove_pawn (h : Sim b pos) (hs : Sane pos)
    (hc : pos.Carries src dst .pawn cap) {ply : Ply}
    (hply : ply = .move src dst .pawn cap ∨ ∃ q ∈ promotionPieces, ply = .promote src dst q cap) :
    b.isLegalMove ply.encode = true ↔ (pos.apply (.move src dst .pawn cap)).Safe := by
  obtain ⟨q, hq, hplace, hops, hfold, hking⟩ : ∃ q, q ≠ .king ∧
      pos.placement ply = pos.placement (.promote src dst q cap) ∧
      OpsOkAt pos.man (ply.ops pos.side b.getEppawn) ∧
      (ply.ops pos.side b.getEppawn).foldl PieceOp.apply pos.man = pos.placement ply ∧
      (b.runOps (ply.ops pos.side b.getEppawn)).king = b.king := by
    have hcap : cap ≠ some .king := by
      rintro rfl
      exact hc.cap_ne_king hs.safe rfl
    rcases hply with rfl | ⟨q, hq, rfl⟩
    · refine ⟨.pawn, by decide, rfl, opsOkAt_move hc _, foldl_ops_move hc _, ?_⟩
      have hking := king_runOps_ops b pos.side b.getEppawn
        (show (Ply.move src dst .pawn cap).captured ≠ _ from hcap) (fun e => e)
      exact hking.trans (if_neg (by simp [Ply.piece]))
    · have hne : q ≠ .king := by
        rintro rfl
        simp [promotionPieces] at hq
      refine ⟨q, hne, rfl, opsOkAt_promote hc q _, foldl_ops_promote pos src dst q cap _, ?_⟩
      have hking := king_runOps_ops b pos.side b.getEppawn
        (show (Ply.promote src dst q cap).captured ≠ _ from hcap) (fun e => absurd e hne)
      exact hking.trans (if_neg (by simp [Ply.piece]))
  have hword : b.moveOps ply.encode = ply.ops pos.side b.getEppawn := by
    rw [moveOps_encode, h.side]
  have hcons := h.consistent.makeMove ply.encode (by rw [hword]; exact hops)
  rw [hword, hfold, hplace] at hcons
  obtain ⟨kg, hkg⟩ := hs.king_exists pos.side
  have hget : (b.makeMove ply.encode).getKing pos.side = some kg := by
    change (b.makeMove ply.encode).king.get pos.side = some kg
    rw [makeMove_king, hword, hking]
    exact h.king _ _ hkg
  rw [← safe_promote hq, Board.isLegalMove, Board.isLegal, Board.kingAttacked, makeMove_side, h.side,
    xside_xside, hget]
  simp only [Bool.not_eq_true', ← Bool.not_eq_true]
  rw [isAttacked_iff hcons]
  constructor
  · intro hn sq hsq
    change pos.placement (.promote src dst q cap) sq = some (pos.side.xside.xside, .king) at hsq
    rw [xside_xside, placement_pawn_king hq hc] at hsq
    rw [hs.king_unique _ _ _ hsq hkg]
    exact hn
  · intro hsafe
    apply hsafe kg
    change pos.placement (.promote src dst q cap) kg = some (pos.side.xside.xside, .king)
    rw [xside_xside, placement_pawn_king hq hc]
    exact hkg

end Legality

/-! ## Which texts lead to a malformed call -/

/-- The text names a pawn move that is legal with a new piece but says none, or
one that is legal without a new piece but says one. -/
def MoveText.Misnames (pos : Position) : MoveText → Prop
  | coordinate src dst none => ∃ q cap, pos.Legal (.promote src dst q cap)
  | coordinate src dst (some c) =>
    (promoLower c).isSome ∧ ∃ cap, pos.Legal (.move src dst .pawn cap)
  | pawnCapture f dst none =>
    ∃ src q cap, fil src = f.val ∧ pos.Legal (.promote src dst q (some cap))
  | pawnCapture f dst (some c) =>
    (promoUpper c).isSome ∧
      ∃ src cap, fil src = f.val ∧ pos.Legal (.move src dst .pawn (some cap))
  | pawnPush dst none => ∃ src q, fil src = fil dst ∧ pos.Legal (.promote src dst q none)
  | pawnPush dst (some c) =>
    (promoUpper c).isSome ∧ ∃ src, fil src = fil dst ∧ pos.Legal (.move src dst .pawn none)
  | _ => False

section Origins

theorem fil_wrapSquare (r : Int) (f : Nat) (hf : f < 8) : fil (wrapSquare r f) = f := by
  unfold fil wrapSquare
  simp only
  omega

theorem wrapSquare_eq {r : Int} {sq : Square} (h : r = rnk sq) : wrapSquare r (fil sq) = sq := by
  apply Fin.ext
  have h1 := square_val sq
  have h2 := sq.isLt
  unfold wrapSquare
  simp only
  omega

variable [k : Build] {b : Board} {pos : Position} {src dst : Square}

theorem Sim.pieceAt_of_man (h : Sim b pos) {sq : Square} {m : Man} (hm : pos.man sq = some m) :
    b.pieceAt sq = some m.2 := by
  rw [h.consistent.pieceAt_eq, hm]
  rfl

theorem Sim.pieceAt_dst (h : Sim b pos) {p : Piece} {cap : Option Piece}
    (hc : pos.Carries src dst p cap) : b.pieceAt dst = cap := by
  rw [h.consistent.pieceAt_eq, hc.2.1]
  cases cap <;> rfl

/-- The origin of a pawn capture in SAN, en passant or not. -/
theorem Sim.captureOrigin_of_reach (h : Sim b pos) (ht : dst ∈ reach pos.man pos.side .pawn src) :
    wrapSquare (if b.side = .white then rnk dst - 1 else rnk dst + 1) (fil src) = src := by
  have ha := (pawn_reach_coords ht).2
  apply wrapSquare_eq
  rw [h.side]
  cases hside : pos.side <;> rw [hside] at ha <;>
    simp only [Ahead, if_true, reduceCtorEq, if_false] at ha ⊢ <;> omega

theorem Sim.captureOrigin (h : Sim b pos) {q : Piece} (hc : pos.Carries src dst .pawn (some q)) :
    wrapSquare (if b.side = .white then rnk dst - 1 else rnk dst + 1) (fil src) = src := by
  have ht := hc.2.2
  rw [Option.isSome_some, targets_capture] at ht
  exact h.captureOrigin_of_reach ht

/-- The origin of a pawn advance in SAN: one square ahead if a pawn stands there. -/
theorem Sim.pushOrigin (h : Sim b pos) (hv : Valid pos) (hc : pos.Carries src dst .pawn none)  :
    ∃ r, b.pushRank dst = some r ∧ wrapSquare r (fil dst) = src := by
  have ht := hc.2.2
  rw [Option.isSome_none, targets_push, mem_pushes] at ht
  have hfil : fil src = fil dst := by
    rcases ht with ⟨ha, _⟩ | ⟨_, ha, _⟩ <;> exact (along_forward ha).1.symm
  have hA1 : b.pieceAt a1 ≠ some .pawn := by
    rw [h.consistent.pieceAt_eq]
    cases hm : pos.man a1 with
    | none => exact fun e => by cases e
    | some m =>
      obtain ⟨c, p⟩ := m
      intro e
      obtain rfl : p = .pawn := Option.some.inj e
      exact (hv.pawns c a1 hm).1 rfl
  have hpawn : ∀ r : Int, wrapSquare r (fil dst) = src →
      b.pieceAt (wrapSquare r (fil dst)) = some .pawn := by
    intro r e
    rw [e, h.pieceAt_of_man hc.1]
  have hsrc : ∀ r : Int, r = rnk src → wrapSquare r (fil dst) = src := by
    intro r e
    rw [← hfil]
    exact wrapSquare_eq e
  have hfree : ∀ u, Along src (forward pos.side) 1 u → pos.man u = none →
      ∀ r : Int, r = rnk u → b.pieceAt (wrapSquare r (fil dst)) ≠ some .pawn := by
    intro u hu hn r hr
    have hfu : fil dst = fil u := by rw [← hfil, (along_forward hu).1]
    rw [hfu, wrapSquare_eq hr, h.consistent.pieceAt_eq, hn]
    exact fun e => by cases e
  unfold Board.pushRank
  rw [h.side]
  have hs8 := rnk_lt dst
  rcases ht with ⟨ha, _⟩ | ⟨hr, ha, _, u, hu, hn⟩
  · have h1 := (along_forward ha).2
    cases hside : pos.side with
    | white =>
      rw [hside] at h1
      simp only [Ahead] at h1
      rw [if_pos rfl]
      by_cases h3 : rnk dst = 3
      · have hw := hsrc 2 (by omega)
        rw [if_pos h3, if_pos (hpawn 2 hw)]
        exact ⟨2, rfl, hw⟩
      · rw [if_neg h3]
        exact ⟨_, rfl, hsrc _ (by omega)⟩
    | black =>
      rw [hside] at h1
      simp only [Ahead] at h1
      rw [if_neg (by decide)]
      by_cases h4 : rnk dst = 4
      · have hw := hsrc 5 (by omega)
        rw [if_pos h4, if_pos (hpawn 5 hw)]
        exact ⟨5, rfl, hw⟩
      · rw [if_neg h4]
        exact ⟨_, rfl, hsrc _ (by omega)⟩
  · have h2 := (along_forward ha).2
    have h1 := (along_forward hu).2
    cases hside : pos.side with
    | white =>
      rw [hside] at h1 h2 hr
      simp only [Ahead, pawnRank, rank2] at h1 h2 hr
      rw [if_pos rfl, if_pos (by omega), if_neg (hfree u hu hn 2 (by omega)), if_pos hA1]
      exact ⟨1, rfl, hsrc 1 (by omega)⟩
    | black =>
      rw [hside] at h1 h2 hr
      simp only [Ahead, pawnRank, rank7] at h1 h2 hr
      rw [if_neg (by decide), if_pos (by omega), if_neg (hfree u hu hn 5 (by omega)), if_pos hA1]
      exact ⟨6, rfl, hsrc 6 (by omega)⟩

end Origins

section Malformed

variable [k : Build] {b : Board} {pos : Position} {src dst : Square}

/-- The call passes both checks although it is no move of the rules. -/
def Board.Slips (b : Board) (pos : Position) (fac : Factory) : Prop :=
  fac.Malformed pos ∧ b.isLegalMove fac.word = true

/-- A call with a new piece slips through if the pawn move is legal without one. -/
theorem Sim.slips_promotion (h : Sim b pos) (hs : Sane pos) {q : Piece}
    (hq : q ∈ promotionPieces) :
    b.Slips pos (.promotion src dst (some q)) ↔ pos.Legal (.move src dst .pawn none) := by
  have hword : (Factory.promotion src dst (some q)).word =
      (Ply.promote src dst q none).encode := rfl
  constructor
  · rintro ⟨⟨hc, hbad⟩, hl⟩
    have hrank : rnk dst ≠ lastRank pos.side := hbad.resolve_right fun e => e q hq rfl
    rw [hword, h.isLegalMove_pawn hs hc (Or.inr ⟨q, hq, rfl⟩)] at hl
    exact ⟨⟨hc, fun e => hrank e.2⟩, hl⟩
  · rintro ⟨⟨hc, hrank⟩, hsafe⟩
    refine ⟨⟨hc, Or.inl fun e => hrank ⟨rfl, e⟩⟩, ?_⟩
    rw [hword, h.isLegalMove_pawn hs hc (Or.inr ⟨q, hq, rfl⟩)]
    exact hsafe

theorem Sim.slips_promotionCapture (h : Sim b pos) (hs : Sane pos) {q : Piece}
    (hq : q ∈ promotionPieces) :
    b.Slips pos (.promotionCapture src dst (some q) (b.pieceAt dst)) ↔
      ∃ x, pos.Legal (.move src dst .pawn (some x)) := by
  have hword : ∀ x, (Factory.promotionCapture src dst (some q) (some x)).word =
      (Ply.promote src dst q (some x)).encode := fun _ => rfl
  constructor
  · rintro ⟨⟨x, hc, hbad⟩, hl⟩
    rw [h.pieceAt_dst hc] at hbad hl
    have hrank : rnk dst ≠ lastRank pos.side := by
      rcases hbad with e | e | e
      · exact e
      · exact absurd rfl (e q hq)
      · exact absurd rfl e
    rw [hword, h.isLegalMove_pawn hs hc (Or.inr ⟨q, hq, rfl⟩)] at hl
    exact ⟨x, ⟨hc, fun e => hrank e.2⟩, hl⟩
  · rintro ⟨x, ⟨hc, hrank⟩, hsafe⟩
    rw [h.pieceAt_dst hc]
    refine ⟨⟨x, hc, Or.inl fun e => hrank ⟨rfl, e⟩⟩, ?_⟩
    rw [hword, h.isLegalMove_pawn hs hc (Or.inr ⟨q, hq, rfl⟩)]
    exact hsafe

/-- A call without a new piece slips through if the pawn move is legal with one. -/
theorem Sim.slips_normal (h : Sim b pos) (hs : Sane pos) (p : Option Piece) :
    b.Slips pos (.normal src dst p) ↔
      p = some .pawn ∧ ∃ q, pos.Legal (.promote src dst q none) := by
  have hword : (Factory.normal src dst (some .pawn)).word =
      (Ply.move src dst .pawn none).encode := rfl
  constructor
  · rintro ⟨⟨rfl, hl, hc⟩, hlegal⟩
    rw [hword, h.isLegalMove_pawn hs hc (Or.inl rfl)] at hlegal
    exact ⟨rfl, .queen, ⟨hc, hl, by decide⟩, (safe_promote (by decide)).mpr hlegal⟩
  · rintro ⟨rfl, q, ⟨hc, hl, hq⟩, hsafe⟩
    refine ⟨⟨rfl, hl, hc⟩, ?_⟩
    have hne : q ≠ .king := by
      rintro rfl
      simp [promotionPieces] at hq
    rw [hword, h.isLegalMove_pawn hs hc (Or.inl rfl)]
    exact (safe_promote hne).mp hsafe

theorem Sim.slips_capture (h : Sim b pos) (hs : Sane pos) (p : Option Piece) :
    b.Slips pos (.capture src dst p (b.pieceAt dst)) ↔
      p = some .pawn ∧ ∃ q x, pos.Legal (.promote src dst q (some x)) := by
  have hword : ∀ x, (Factory.capture src dst (some .pawn) (some x)).word =
      (Ply.move src dst .pawn (some x)).encode := fun _ => rfl
  constructor
  · rintro ⟨⟨p', x, rfl, hc, hbad⟩, hlegal⟩
    rw [h.pieceAt_dst hc] at hbad hlegal
    obtain ⟨rfl, hl⟩ := hbad.resolve_left fun e => e rfl
    rw [hword, h.isLegalMove_pawn hs hc (Or.inl rfl)] at hlegal
    exact ⟨rfl, .queen, x, ⟨hc, hl, by decide⟩, (safe_promote (by decide)).mpr hlegal⟩
  · rintro ⟨rfl, q, x, ⟨hc, hl, hq⟩, hsafe⟩
    rw [h.pieceAt_dst hc]
    refine ⟨⟨.pawn, x, rfl, hc, Or.inr ⟨rfl, hl⟩⟩, ?_⟩
    have hne : q ≠ .king := by
      rintro rfl
      simp [promotionPieces] at hq
    rw [hword, h.isLegalMove_pawn hs hc (Or.inl rfl)]
    exact (safe_promote hne).mp hsafe

theorem not_slips_enpassant : ¬ b.Slips pos (.enpassant src dst) := fun h => h.1

theorem not_slips_castle (f : CastleFlag) : ¬ b.Slips pos (.castle f.kingHome f) :=
  fun h => h.1.1 rfl

/-- A pawn does not reach the last rank en passant. -/
theorem Sim.ep_ne (h : Sim b pos) (hs : Sane pos) (hl : rnk dst = lastRank pos.side) :
    some dst ≠ b.epsq := by
  intro e
  rw [h.ep] at e
  have hr := (hs.ep dst e.symm).rank
  rw [hl] at hr
  cases hside : pos.side <;> rw [hside] at hr <;> cases hr

theorem Sim.coordinateCall_slips (h : Sim b pos) (hs : Sane pos) (suffix : Option Char) :
    (∃ fac, b.coordinateCall src dst suffix = some fac ∧ b.Slips pos fac) ↔
      (MoveText.coordinate src dst suffix).Misnames pos := by
  have hpawn : ∀ {cap}, pos.Carries src dst .pawn cap →
      b.pieceAt src = some .pawn ∧ b.pieceAt dst = cap :=
    fun hc => ⟨h.pieceAt_of_man hc.1, h.pieceAt_dst hc⟩
  have hmis : (MoveText.coordinate src dst suffix).Misnames pos →
      ∃ cap, pos.Carries src dst .pawn cap := by
    intro hm
    cases suffix with
    | none =>
      obtain ⟨q, cap, hl⟩ := hm
      exact ⟨cap, hl.1.1⟩
    | some c =>
      obtain ⟨_, cap, hl⟩ := hm
      exact ⟨cap, hl.1.1⟩
  unfold Board.coordinateCall
  cases hcastle : (if b.pieceAt src = some .king then b.coordinateCastle src dst else none) with
  | some f =>
    simp only [hcastle, Option.some.injEq, exists_eq_left', not_slips_castle, false_iff]
    intro hm
    obtain ⟨cap, hc⟩ := hmis hm
    rw [(hpawn hc).1] at hcastle
    cases hcastle
  | none =>
    simp only [hcastle]
    cases suffix with
    | some c =>
      simp only [MoveText.Misnames, Option.map_eq_some_iff]
      cases hq : promoLower c with
      | none => simp
      | some q =>
        have hmem := promoLower_mem hq
        simp only [Option.some.injEq, exists_eq_left', Option.isSome_some, true_and]
        cases hd : b.pieceAt dst with
        | none =>
          simp only [ne_eq, not_true_eq_false, if_false]
          rw [h.slips_promotion hs hmem]
          constructor
          · exact fun hl => ⟨none, hl⟩
          · rintro ⟨cap, hl⟩
            rwa [← (hpawn hl.1.1).2, hd] at hl
        | some x =>
          simp only [ne_eq, reduceCtorEq, not_false_eq_true, if_true]
          rw [← hd, h.slips_promotionCapture hs hmem]
          constructor
          · rintro ⟨x, hl⟩
            exact ⟨some x, hl⟩
          · rintro ⟨cap, hl⟩
            have hcap := (hpawn hl.1.1).2
            rw [hd] at hcap
            subst hcap
            exact ⟨x, hl⟩
    | none =>
      simp only [MoveText.Misnames]
      cases hd : b.pieceAt dst with
      | some x =>
        simp only [ne_eq, reduceCtorEq, not_false_eq_true, if_true, Option.some.injEq,
          exists_eq_left']
        rw [← hd, h.slips_capture hs]
        constructor
        · rintro ⟨_, q, x, hl⟩
          exact ⟨q, some x, hl⟩
        · rintro ⟨q, cap, hl⟩
          obtain ⟨h1, h2⟩ := hpawn hl.1.1
          rw [hd] at h2
          subst h2
          exact ⟨h1, q, x, hl⟩
      | none =>
        simp only [ne_eq, not_true_eq_false, if_false]
        constructor
        · rintro ⟨fac, hfac, hslip⟩
          split at hfac <;> cases hfac
          · exact absurd hslip not_slips_enpassant
          · obtain ⟨_, q, hl⟩ := (h.slips_normal hs _).mp hslip
            exact ⟨q, none, hl⟩
        · rintro ⟨q, cap, hl⟩
          obtain ⟨h1, h2⟩ := hpawn hl.1.1
          rw [hd] at h2
          subst h2
          rw [if_neg (h.ep_ne hs hl.1.2.1)]
          exact ⟨_, rfl, (h.slips_normal hs _).mpr ⟨h1, q, hl⟩⟩

theorem Sim.captureCall_slips (h : Sim b pos) (hs : Sane pos) (f : Fin 8) (suffix : Option Char) :
    (∃ fac, b.captureCall f dst suffix = some fac ∧ b.Slips pos fac) ↔
      (MoveText.pawnCapture f dst suffix).Misnames pos := by
  have horigin : ∀ {src x}, fil src = f.val → pos.Carries src dst .pawn (some x) →
      wrapSquare (if b.side = .white then rnk dst - 1 else rnk dst + 1) f.val = src := by
    intro src x hf hc
    rw [← hf, h.captureOrigin hc]
  have hfil : ∀ r, fil (wrapSquare r f.val) = f.val := fun r => fil_wrapSquare r f.val f.isLt
  unfold Board.captureCall
  cases suffix with
  | some c =>
    simp only [MoveText.Misnames, Option.map_eq_some_iff]
    cases hq : promoUpper c with
    | none => simp
    | some q =>
      simp only [Option.some.injEq, exists_eq_left', Option.isSome_some, true_and]
      rw [h.slips_promotionCapture hs (promoUpper_mem hq)]
      constructor
      · rintro ⟨x, hl⟩
        exact ⟨_, x, hfil _, hl⟩
      · rintro ⟨src, x, hf, hl⟩
        exact ⟨x, by rw [horigin hf hl.1.1]; exact hl⟩
  | none =>
    simp only [MoveText.Misnames]
    constructor
    · rintro ⟨fac, hfac, hslip⟩
      split at hfac <;> cases hfac
      · exact absurd hslip not_slips_enpassant
      · obtain ⟨_, q, x, hl⟩ := (h.slips_capture hs _).mp hslip
        exact ⟨_, q, x, hfil _, hl⟩
    · rintro ⟨src, q, x, hf, hl⟩
      rw [if_neg (h.ep_ne hs hl.1.2.1), horigin hf hl.1.1]
      exact ⟨_, rfl, (h.slips_capture hs _).mpr ⟨rfl, q, x, hl⟩⟩

theorem Sim.pushCall_slips (h : Sim b pos) (hs : Sane pos) (suffix : Option Char) :
    (∃ fac, b.pushCall dst suffix = some fac ∧ b.Slips pos fac) ↔
      (MoveText.pawnPush dst suffix).Misnames pos := by
  have hfil : ∀ r, fil (wrapSquare r (fil dst)) = fil dst :=
    fun r => fil_wrapSquare r (fil dst) (fil_lt dst)
  unfold Board.pushCall
  cases suffix with
  | some c =>
    simp only [MoveText.Misnames]
    constructor
    · rintro ⟨fac, hfac, hslip⟩
      cases hr : b.pushRank dst with
      | none =>
        rw [hr] at hfac
        cases hfac
      | some r =>
        rw [hr] at hfac
        obtain ⟨q, hq, rfl⟩ := Option.map_eq_some_iff.mp hfac
        exact ⟨by rw [hq]; rfl, _, hfil r, (h.slips_promotion hs (promoUpper_mem hq)).mp hslip⟩
    · rintro ⟨hc, src, _, hl⟩
      obtain ⟨q, hq⟩ := Option.isSome_iff_exists.mp hc
      obtain ⟨r, hr, rfl⟩ := h.pushOrigin hs.toValid hl.1.1
      rw [hr]
      exact ⟨_, Option.map_eq_some_iff.mpr ⟨q, hq, rfl⟩,
        (h.slips_promotion hs (promoUpper_mem hq)).mpr hl⟩
  | none =>
    simp only [MoveText.Misnames]
    constructor
    · rintro ⟨fac, hfac, hslip⟩
      cases hr : b.pushRank dst with
      | none =>
        rw [hr] at hfac
        cases hfac
      | some r =>
        rw [hr] at hfac
        cases hfac
        obtain ⟨_, q, hl⟩ := (h.slips_normal hs _).mp hslip
        exact ⟨_, q, hfil r, hl⟩
    · rintro ⟨src, q, _, hl⟩
      obtain ⟨r, hr, rfl⟩ := h.pushOrigin hs.toValid hl.1.1
      rw [hr]
      exact ⟨_, rfl, (h.slips_normal hs _).mpr ⟨rfl, q, hl⟩⟩

/-- A piece move in SAN is never malformed: no pawn is among the piece letters. -/
theorem Sim.pieceCall_not_slips (h : Sim b pos) (hs : Sane pos) {p : Piece} (hp : p ≠ .pawn)
    {f r : Option (Fin 8)} {capture : Bool} {fac : Factory}
    (hfac : b.pieceCall p f r capture dst = some fac) : ¬ b.Slips pos fac := by
  unfold Board.pieceCall at hfac
  cases ho : b.origin p f r dst with
  | none =>
    rw [ho] at hfac
    cases hfac
  | some src =>
    rw [ho] at hfac
    simp only at hfac
    intro hslip
    split at hfac
    · cases hfac
    split at hfac
    · cases hfac
    split at hfac
    · cases hfac
    split at hfac <;> cases hfac
    · exact hp (Option.some.inj ((h.slips_capture hs _).mp hslip).1)
    · exact hp (Option.some.inj ((h.slips_normal hs _).mp hslip).1)

end Malformed

theorem pieceChar_ne_pawn {c : Char} {p : Piece} (h : pieceChar c = some p) : p ≠ .pawn := by
  unfold pieceChar at h
  split at h <;> cases h <;> decide

theorem scanPiece_piece {p p' : Piece} {s : List Char} {f r : Option (Fin 8)} {capture : Bool}
    {dst : Square} (h : scanPiece p s = .piece p' f r capture dst) : p' = p := by
  unfold scanPiece at h
  simp only at h
  split at h
  · cases h
    rfl
  · split at h <;> cases h
    rfl
  · cases h

theorem scanText_piece {s : List Char} {p : Piece} {f r : Option (Fin 8)} {capture : Bool}
    {dst : Square} (h : scanText s = .piece p f r capture dst) : p ≠ .pawn := by
  unfold scanText at h
  split at h
  · cases h
  split at h
  · cases h
  split at h
  · rename_i t ht
    subst h
    unfold scanCoordinate at ht
    simp only [Option.bind_eq_bind, Option.bind_eq_some_iff] at ht
    obtain ⟨_, _, _, _, ht⟩ := ht
    split at ht
    · cases ht
    · split at ht <;> cases ht
  · split at h
    · unfold scanPawn at h
      split at h
      · cases h
      · split at h <;> cases h
    · split at h
      · rename_i q hq
        rw [scanPiece_piece h]
        exact pieceChar_ne_pawn hq
      · cases h

/-- A factory never returns `NO_MOVE`. -/
theorem word_ne_noMove (fac : Factory) : fac.word ≠ .noMove := by
  have hflags : ∀ src dst p c (fl : BitVec 16), fl.toNat < 2 ^ 14 → fl ≠ 0#16 →
      Move.pack (some src) (some dst) p c fl ≠ .noMove := by
    intro src dst p c fl hfl hne e
    apply hne
    rw [← Move.flags_pack p c fl (some src) (some dst) hfl, e]
    rfl
  cases fac <;> exact hflags _ _ _ _ _ (by decide) (by decide)

section Exactness

variable [k : Build] {b : Board} {pos : Position}

/-- **Which texts lead to a call that slips through both checks.** -/
theorem Sim.readMove_slips (h : Sim b pos) (hs : Sane pos) (s : List Char) :
    (∃ fac, b.readMove (scanText s) = some fac ∧ b.Slips pos fac) ↔
      (scanText s).Misnames pos := by
  have hcastle : ∀ wf bf, ¬ ∃ fac, b.castleCall wf bf = some fac ∧ b.Slips pos fac := by
    rintro wf bf ⟨fac, hfac, hslip⟩
    unfold Board.castleCall at hfac
    split at hfac
    · cases hfac
      exact not_slips_castle wf hslip
    · split at hfac <;> cases hfac
      exact not_slips_castle bf hslip
  cases ht : scanText s with
  | castleShort => exact iff_of_false (hcastle _ _) (fun e => e)
  | castleLong => exact iff_of_false (hcastle _ _) (fun e => e)
  | coordinate src dst suffix => exact h.coordinateCall_slips hs suffix
  | pawnCapture f dst suffix => exact h.captureCall_slips hs f suffix
  | pawnPush dst suffix => exact h.pushCall_slips hs suffix
  | piece p f r capture dst =>
    refine iff_of_false ?_ (fun e => e)
    rintro ⟨fac, hfac, hslip⟩
    exact h.pieceCall_not_slips hs (scanText_piece ht) hfac hslip
  | invalid =>
    refine iff_of_false ?_ (fun e => e)
    rintro ⟨fac, hfac, _⟩
    cases hfac

omit k in
theorem kingHome_eq (f : CastleFlag) : f.kingHome = e1 ∨ f.kingHome = e8 := by
  cases f <;> decide

omit k in
theorem castleCall_allowed {wf bf : CastleFlag} {fac : Factory} (hw : wf.color = .white)
    (hb : bf.color = .black) (h : b.castleCall wf bf = some fac) : fac.Allowed b.side := by
  unfold Board.castleCall at h
  split at h
  · rename_i hside
    cases h
    exact ⟨kingHome_eq wf, hw.trans hside.1.symm⟩
  · split at h <;> cases h
    rename_i hside
    exact ⟨kingHome_eq bf, hb.trans hside.1.symm⟩

omit k in
theorem coordinateCastle_color {src dst : Square} {f : CastleFlag}
    (h : b.coordinateCastle src dst = some f) : f.color = b.side := by
  unfold Board.coordinateCastle at h
  split at h
  · rename_i hc
    cases h
    exact hc.1.symm
  split at h
  · rename_i hc
    cases h
    exact hc.1.symm
  split at h
  · rename_i hc
    cases h
    exact hc.1.symm
  split at h <;> cases h
  rename_i hc
  exact hc.1.symm

omit k in
theorem coordinateCall_allowed {src dst : Square} {suffix : Option Char} {fac : Factory}
    (h : b.coordinateCall src dst suffix = some fac) : fac.Allowed b.side := by
  simp only [Board.coordinateCall] at h
  split at h
  · rename_i f hf
    cases h
    split at hf
    · exact ⟨kingHome_eq f, coordinateCastle_color hf⟩
    · cases hf
  · split at h
    · obtain ⟨q, _, rfl⟩ := Option.map_eq_some_iff.mp h
      split <;> trivial
    · split at h
      · cases h
        trivial
      · split at h <;> cases h <;> trivial

/-- Castling is only called for the side to move. -/
theorem readMove_allowed {t : MoveText} {fac : Factory} (h : b.readMove t = some fac) :
    fac.Allowed b.side := by
  cases t with
  | castleShort => exact castleCall_allowed rfl rfl h
  | castleLong => exact castleCall_allowed rfl rfl h
  | coordinate src dst suffix => exact coordinateCall_allowed h
  | pawnCapture f dst suffix =>
    simp only [Board.readMove, Board.captureCall] at h
    split at h
    · obtain ⟨q, _, rfl⟩ := Option.map_eq_some_iff.mp h
      trivial
    · split at h <;> cases h <;> trivial
  | pawnPush dst suffix =>
    simp only [Board.readMove, Board.pushCall] at h
    split at h
    · cases h
    · split at h
      · obtain ⟨q, _, rfl⟩ := Option.map_eq_some_iff.mp h
        trivial
      · cases h
        trivial
  | piece p f r capture dst =>
    simp only [Board.readMove, Board.pieceCall] at h
    split at h
    · cases h
    split at h
    · cases h
    split at h
    · cases h
    split at h
    · cases h
    split at h <;> cases h <;> trivial
  | invalid => cases h

/-- **What the parser returns is a legal move unless the text misnames a promotion.** -/
theorem Sim.parseMove1_exact (h : Sim b pos) (hs : Sane pos) (hm : MaterialOk pos)
    (s : List Char) :
    (b.parseMove1 s = .noMove ∨ b.parseMove1 s ∈ b.legalMoves.moves) ↔
      ¬ (scanText s).Misnames pos := by
  rw [← h.readMove_slips hs]
  unfold Board.parseMove1 Board.doParseMove1
  cases hread : b.readMove (scanText s) with
  | none =>
    simp
  | some fac =>
    have hallowed := readMove_allowed hread
    rw [h.side] at hallowed
    have hvalid := h.isValidMove_word hs fac hallowed
    simp only [Option.some.injEq, exists_eq_left', ne_eq, word_ne_noMove fac, not_false_eq_true,
      true_and]
    by_cases hok : b.isValidMove fac.word = true ∧ b.isLegalMove fac.word = true
    · have hlist : fac.word ∈ b.legalMoves.moves ↔ ∃ ply, fac.ply = some ply ∧ pos.Pseudo ply := by
        rw [Board.legalMoves, Board.filterIllegal, Movelist.mem_filterBy,
          h.word_mem_generateMoves hs hm, and_iff_left hok.2]
      rw [if_pos hok, or_iff_right (word_ne_noMove fac), hlist, Board.Slips, and_iff_left hok.2,
        fac.malformed_iff, and_iff_right (hvalid.mp hok.1), not_not]
    · rw [if_neg hok]
      simp only [true_or, true_iff]
      rintro ⟨hmal, hlegal⟩
      exact hok ⟨hvalid.mpr (fac.malformed_iff.mp hmal).1, hlegal⟩

/-- **When the fast parser is right**, on every board of a game, for every text. -/
theorem reached_parseMove1_exact (h : Reached b) (s : List Char) :
    (b.parseMove1 s = .noMove ∨ b.parseMove1 s ∈ b.legalMoves.moves) ↔
      ¬ (scanText s).Misnames b.abs := by
  obtain ⟨hsim, hp⟩ := h.sim_abs
  exact hsim.parseMove1_exact hp.sane hp.materialOk s

end Exactness

/-- A knight comes out. -/
example : (@Board.parseFen sampleBuild openingFen).holds (fun b =>
    @Board.parseMove1 sampleBuild b "Nf3".toList == Ply.encode (.move 6 21 .knight none)) = true := by
  decide +kernel

/-- On the opening board the text `e2e4q` is parsed as a promotion. -/
theorem parseMove1_early_promotion : ∃ b, @Reached sampleBuild b ∧
    ¬ (@Board.parseMove1 sampleBuild b "e2e4q".toList = .noMove ∨
      @Board.parseMove1 sampleBuild b "e2e4q".toList ∈
        (@Board.legalMoves sampleBuild b).moves) := by
  let _ := sampleBuild
  obtain ⟨b, hb, hsim⟩ := parseFen_opening
  refine ⟨b, .opening hb, ?_⟩
  rw [hsim.parseMove1_exact sane_opening materialOk_opening, not_not]
  have hscan : scanText "e2e4q".toList = .coordinate 12 28 (some 'q') := by decide +kernel
  rw [hscan]
  exact ⟨rfl, none, by decide +kernel⟩

/-- The text `e2e4` is parsed as a legal move. -/
theorem parseMove1_exact_advance : ∃ b, @Reached sampleBuild b ∧
    (@Board.parseMove1 sampleBuild b "e2e4".toList = .noMove ∨
      @Board.parseMove1 sampleBuild b "e2e4".toList ∈
        (@Board.legalMoves sampleBuild b).moves) := by
  let _ := sampleBuild
  obtain ⟨b, hb, hsim⟩ := parseFen_opening
  refine ⟨b, .opening hb, (reached_parseMove1_exact (.opening hb) _).mpr ?_⟩
  have hscan : scanText "e2e4".toList = .coordinate 12 28 none := by decide +kernel
  rw [hscan, hsim.abs_eq]
  rintro ⟨q, cap, hl⟩
  exact absurd hl.1.2.1 (by decide)

end HoiChess.Chess
