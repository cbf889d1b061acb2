import HoiChess.Xiangqi.Reached

/-!
# Printing and reading xiangqi moves

`str` prints the two squares of a move, `san` the man, both squares and a mark for check.  Both
name origin and destination, which no two legal moves share, and one is shorter than the other
(`legal_eq_of_shown`); so `parse_move` finds the move that was printed (`parseMove_shown`).
-/

namespace HoiChess.Xiangqi

open Rules
open Chess (Color PerColor)

/-- `piece_char` -/
def pieceLetter : Piece → Char
  | .pawn => 'P'
  | .guard => 'A'
  | .elephant => 'E'
  | .knight => 'H'
  | .cannon => 'C'
  | .rook => 'R'
  | .king => 'K'

/-- `file_char` -/
def fileLetter (f : Fin 9) : Char := ['a', 'b', 'c', 'd', 'e', 'f', 'g', 'h', 'i'].get f

/-- `rank_char` -/
def rankLetter (r : Fin 10) : Char := ['0', '1', '2', '3', '4', '5', '6', '7', '8', '9'].get r

/-- `square_str` -/
def squareStr (sq : Square) : List Char :=
  [fileLetter ⟨fil sq, fil_lt sq⟩, rankLetter ⟨rnk sq, rnk_lt sq⟩]

namespace Board

variable [Keys] (b : Board)

/-- `is_mate()` -/
def isMate : Bool := b.inCheck && b.legalMoves.moves.isEmpty

/-- `is_stalemate()` -/
def isStalemate : Bool := !b.inCheck && b.legalMoves.moves.isEmpty

end Board

namespace Move

variable (mov : Move)

/-- `square_str[from()]`; a square that is none would index outside the table. -/
def fromStr : List Char := (mov.movFrom.map squareStr).getD []

/-- `square_str[to()]` -/
def toStr : List Char := (mov.movTo.map squareStr).getD []

/-- `str()`: `snprintf` leaves room for five characters. -/
def str : List Char := (mov.fromStr ++ mov.toStr).take 5

variable [Keys] (b : Board)

/-- The mark behind a move. -/
def sanCheck : List Char :=
  if (b.makeMove mov).isMate || (b.makeMove mov).isStalemate then ['#']
  else if (b.makeMove mov).inCheck then ['+']
  else []

/-- The letter of the man that moves. -/
def sanPiece : List Char :=
  ((mov.movFrom.bind fun sq => b.pieceAt sq).map pieceLetter).toList

/-- `san(board, nonstd)`; there is no other form than the standard one, and `snprintf` leaves room
for eleven characters. -/
def san (_nonstd : Nat) : List Char :=
  (mov.sanPiece b ++ mov.fromStr ++ [if mov.isCapture then 'x' else '-'] ++ mov.toStr ++
    mov.sanCheck b).take 11

end Move

/-- `parse_move(str, pseudolegal)` -/
def Board.parseMove [Keys] (b : Board) (s : List Char) (pseudolegal : Bool) : Move :=
  let moves := if pseudolegal then b.generateMoves .empty else b.legalMoves
  (moves.moves.find? fun mov =>
    s = mov.str || s = mov.san b 0 || [1, 2, 3, 4, 5].any fun j => s = mov.san b j).getD .noMove

/-! ## What is printed -/

theorem squareStr_length (sq : Square) : (squareStr sq).length = 2 := rfl

/-- **A square is known from its text.** -/
theorem squareStr_injective : Function.Injective squareStr := by
  intro s t h
  have hfile : Function.Injective fileLetter := by decide
  have hrank : Function.Injective rankLetter := by decide
  obtain ⟨hf, htail⟩ := List.cons.inj h
  obtain ⟨hr, _⟩ := List.cons.inj htail
  exact square_ext (Fin.val_eq_of_eq (hfile hf)) (Fin.val_eq_of_eq (hrank hr))

theorem fromStr_encode (ply : Ply) : ply.encode.fromStr = squareStr ply.src := by
  rw [Move.fromStr, Ply.movFrom_encode]
  rfl

theorem toStr_encode (ply : Ply) : ply.encode.toStr = squareStr ply.dst := by
  rw [Move.toStr, Ply.movTo_encode]
  rfl

theorem str_encode (ply : Ply) : ply.encode.str = squareStr ply.src ++ squareStr ply.dst := by
  rw [Move.str, fromStr_encode, toStr_encode]
  exact List.take_of_length_le (by simp [squareStr_length])

section Print

variable [Keys] {b : Board} {ply : Ply}

theorem sanCheck_length (mov : Move) (b : Board) : (mov.sanCheck b).length ≤ 1 := by
  unfold Move.sanCheck
  split
  · exact le_rfl
  · split
    · exact le_rfl
    · exact Nat.zero_le 1

/-- The text of a move of a man; it fits its buffer. -/
theorem san_encode {p : Piece} (hp : b.pieceAt ply.src = some p) (nonstd : Nat) :
    ply.encode.san b nonstd = pieceLetter p :: (squareStr ply.src ++
      ((if ply.cap.isSome then 'x' else '-') :: (squareStr ply.dst ++ ply.encode.sanCheck b))) := by
  have hpiece : ply.encode.sanPiece b = [pieceLetter p] := by
    rw [Move.sanPiece, Ply.movFrom_encode, Option.bind_some, hp]
    rfl
  have hlen := sanCheck_length ply.encode b
  rw [Move.san, hpiece, fromStr_encode, toStr_encode, Ply.isCapture_encode, List.take_of_length_le]
  · simp
  · simp only [List.length_append, List.length_cons, List.length_nil, squareStr_length]
    omega

end Print

/-! ## The legal moves of a board -/

/-- Two plies of a position with the same squares are the same. -/
theorem Rules.Position.Pseudo.eq_of_squares {pos : Position} {p q : Ply} (hp : pos.Pseudo p)
    (hq : pos.Pseudo q)
    (hs : p.src = q.src) (hd : p.dst = q.dst) : p = q := by
  have hsrc := hp.man_src
  have hdst := hp.man_dst
  rw [hs, hq.man_src] at hsrc
  rw [hd, hq.man_dst] at hdst
  obtain ⟨s, t, piece, cap⟩ := p
  obtain ⟨s', t', piece', cap'⟩ := q
  have hpiece : piece' = piece := congrArg Prod.snd (Option.some.inj hsrc)
  have hcap : cap' = cap := Option.map_injective (Prod.mk_right_injective _) hdst
  dsimp only at hs hd
  rw [hs, hd, hpiece, hcap]

section Legal

variable [Keys] {b : Board} {pos : Position} {m m' : Move}

/-- The ways to write a move. -/
def Move.Shown (mov : Move) (b : Board) (s : List Char) : Prop := s = mov.str ∨ ∃ j, s = mov.san b j

/-- **No two legal moves share a text.** -/
theorem Sim.legal_eq_of_shown (h : Sim b pos) (hs : Sane pos) (hm : m ∈ b.legalMoves.moves)
    (hm' : m' ∈ b.legalMoves.moves) {s : List Char} (hshown : m.Shown b s)
    (hshown' : m'.Shown b s) : m = m' := by
  obtain ⟨p, hp, rfl⟩ := (h.mem_legalMoves hs).mp hm
  obtain ⟨q, hq, rfl⟩ := (h.mem_legalMoves hs).mp hm'
  have hsan : ∀ {ply : Ply}, pos.Legal ply → ∀ j, ∃ c d, ply.encode.san b j =
      c :: (squareStr ply.src ++ (d :: (squareStr ply.dst ++ ply.encode.sanCheck b))) := by
    intro ply hl j
    have hpiece : b.pieceAt ply.src = some ply.piece := by
      rw [h.consistent.pieces, hl.1.man_src]
      rfl
    exact ⟨_, _, san_encode hpiece j⟩
  refine congrArg Ply.encode ?_
  rcases hshown with rfl | ⟨i, rfl⟩ <;> rcases hshown' with he | ⟨j, he⟩
  · rw [str_encode, str_encode] at he
    obtain ⟨hsrc, hdst⟩ := List.append_inj he rfl
    exact hp.1.eq_of_squares hq.1 (squareStr_injective hsrc) (squareStr_injective hdst)
  · obtain ⟨c, d, hc⟩ := hsan hq j
    rw [str_encode, hc] at he
    have hlen := congrArg List.length he
    simp only [List.length_append, List.length_cons, squareStr_length] at hlen
    omega
  · obtain ⟨c, d, hc⟩ := hsan hp i
    rw [str_encode, hc] at he
    have hlen := congrArg List.length he
    simp only [List.length_append, List.length_cons, squareStr_length] at hlen
    omega
  · obtain ⟨c, d, hc⟩ := hsan hp i
    obtain ⟨c', d', hc'⟩ := hsan hq j
    rw [hc, hc'] at he
    obtain ⟨_, he⟩ := List.cons.inj he
    obtain ⟨hsrc, he⟩ := List.append_inj he rfl
    obtain ⟨_, he⟩ := List.cons.inj he
    obtain ⟨hdst, _⟩ := List.append_inj he rfl
    exact hp.1.eq_of_squares hq.1 (squareStr_injective hsrc) (squareStr_injective hdst)

/-- **`parse_move` finds the move that was printed.** -/
theorem Sim.parseMove_shown (h : Sim b pos) (hs : Sane pos) (hm : m ∈ b.legalMoves.moves)
    {s : List Char} (hshown : s = m.str ∨ s = m.san b 0) : b.parseMove s false = m := by
  have hfound : (b.legalMoves.moves.find? fun mov => s = mov.str || s = mov.san b 0 ||
      [1, 2, 3, 4, 5].any fun j => s = mov.san b j) = some m := by
    cases hf : b.legalMoves.moves.find? fun mov => s = mov.str || s = mov.san b 0 ||
        [1, 2, 3, 4, 5].any fun j => s = mov.san b j with
    | none =>
      have hno := List.find?_eq_none.mp hf m hm
      refine absurd ?_ hno
      rcases hshown with rfl | rfl <;> simp
    | some m' =>
      have hm' := List.mem_of_find?_eq_some hf
      have htest := List.find?_some hf
      have hshown' : m'.Shown b s := by
        rw [Bool.or_eq_true, Bool.or_eq_true, List.any_eq_true] at htest
        rcases htest with (ht | ht) | ⟨j, _, ht⟩
        · exact Or.inl (of_decide_eq_true ht)
        · exact Or.inr ⟨0, of_decide_eq_true ht⟩
        · exact Or.inr ⟨j, of_decide_eq_true ht⟩
      have hshown : m.Shown b s := hshown.imp id fun e => ⟨0, e⟩
      rw [h.legal_eq_of_shown hs hm hm' hshown hshown']
  show (Option.getD (List.find? _ b.legalMoves.moves) _) = m
  rw [hfound]
  rfl

end Legal

end HoiChess.Xiangqi
