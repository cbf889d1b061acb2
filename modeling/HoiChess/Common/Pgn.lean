import Mathlib.Logic.Function.Basic
import HoiChess.Lib.Stdio
import HoiChess.Chess.GetFen
import HoiChess.Chess.ParseMove
import HoiChess.Common.BookBuild
import HoiChess.Common.Game

/-!
# Games as PGN text

`write_pgn` writes the seven standard tags, the FEN of the opening unless it is the standard
one, the moves in SAN with their numbers, a newline after every seventy characters or so, and
the result.  `PGN::parse` reads lines up to the first that begins with a bracket, takes tags
and values apart with `strtok_r`, and then reads tokens up to a blank, a dot or the end of a
comment, each of which is a move number, a comment, an annotation, the result or a move for
the fast parser.  Tags are a map whose missing entries are empty.
-/

namespace HoiChess

open Chess Stdio

/-! ## Writing -/

/-- `fprintf(fp, "[%s \"%s\"]\n", ..)` -/
def tagLine (tag val : List Char) : List Char :=
  '[' :: tag ++ " \"".toList ++ val ++ "\"]\n".toList

namespace Game

section Write

variable [Build] (g : Game)

/-- The FEN of the position in which the first move was played. -/
def ofen : String :=
  match g.entries with
  | e :: _ => e.board.getFen
  | [] => g.currentBoard.getFen

def pgnTags : List (List Char × List Char) :=
  [("Event".toList, "unknown".toList), ("Site".toList, "unknown".toList),
    ("Date".toList, "unknown".toList), ("Round".toList, "unknown".toList),
    ("White".toList, "unknown".toList), ("Black".toList, "unknown".toList),
    ("Result".toList, g.resultStr.toList)] ++
    if g.ofen ≠ openingFen then [("FEN".toList, g.ofen.toList)] else []

/-- The loop over the entries, with the number of the next move and the characters of the line. -/
def pgnMoves : List GameEntry → BitVec 32 → Nat → List Char
  | [], _, _ => []
  | e :: es, i, nchars =>
    let s := e.move.san e.board 0
    let text :=
      if e.board.side = .white then showInt i.toInt ++ ". ".toList ++ s ++ [' '] else s ++ [' ']
    let i := if e.board.side = .white then i else i + 1
    if 70 < nchars + text.length then text ++ '\n' :: pgnMoves es i 0
    else text ++ pgnMoves es i (nchars + text.length)

def pgnResult : List Char :=
  g.resultStr.toList ++ [' ', '{'] ++ g.resultComment.toList ++ ['}', '\n']

/-- `write_pgn(fp)` -/
def writePgn : List Char :=
  g.pgnTags.flatMap (fun t => tagLine t.1 t.2) ++ '\n' :: pgnMoves g.entries 1 0 ++
    '\n' :: g.pgnResult

end Write

end Game

/-! ## Reading -/

/-- What `PGN` asks of the board of a game: `parse_fen` leaves a board also where it fails, and
`none` is `NO_MOVE`. -/
class PgnBoard (Brd : Type) (Mov : outParam Type) where
  clear : Brd
  parseFen : String → Brd × Bool
  openingFen : String
  parseMove1 : Brd → List Char → Option Mov
  makeMove : Brd → Mov → Brd

namespace Chess.Board

section Left

variable [Build]

/-- The board where the loop over the placement field ends; a call off the board has no defined
outcome and is left out here. -/
def placeLeft (b : Board) : List Placing → Board
  | [] => b
  | p :: ps =>
    match p.sq with
    | none => placeLeft b ps
    | some sq => placeLeft (b.placePiece sq p.man.1 p.man.2) ps

/-- The board where the loop over the castling letters ends. -/
def flagLeft (b : Board) : List Char → Board
  | [] => b
  | c :: cs =>
    if c = 'K' then flagLeft (b.setFlag .wk) cs
    else if c = 'Q' then flagLeft (b.setFlag .wq) cs
    else if c = 'k' then flagLeft (b.setFlag .bk) cs
    else if c = 'q' then flagLeft (b.setFlag .bq) cs
    else if c = '-' then flagLeft b cs
    else b

/-- The board that `parse_fen` leaves where it returns false. -/
def fenLeft (s : String) : Board :=
  match scanFen (s.toList.takeWhile (fun c => c ≠ '\x00')) with
  | none => clear
  | some f =>
    let (ps, complete) := placeLoop f.pos rank8 0
    let b := clear.placeLeft ps
    if complete then
      match sideOfChar f.clr with
      | none => b
      | some c =>
        let b := b.setSide c
        match b.flagLoop f.flg with
        | none => b.flagLeft f.flg
        | some b =>
          match b.setEpField f.ep with
          | none => b
          | some b => { b with movecnt50 := f.hmc, moveno := f.fmc }
    else b

end Left

instance [Build] : PgnBoard Board Move where
  clear := clear
  parseFen s :=
    match Board.parseFen s with
    | .accepted b => (b, true)
    | .rejected | .undefined => (fenLeft s, false)
  openingFen := Chess.openingFen
  parseMove1 b s := if b.parseMove1 s = .noMove then none else some (b.parseMove1 s)
  makeMove := makeMove

end Chess.Board

/-- `sizeof(buf)` -/
abbrev pgnBufsize : Nat := 1024

namespace Pgn

/-- Line breaks are read as blanks. -/
def readChar (c : Char) : Char := if c = '\n' ∨ c = '\r' then ' ' else c

/-- The loop of `get_movetext_token`, with the room that is left in the buffer. -/
def tokenLoop : Nat → Bool → List Char → List Char × Stream
  | 0, _, s => ([], ⟨s, false⟩)
  | _ + 1, _, [] => ([], ⟨[], true⟩)
  | room + 1, comment, c :: cs =>
    let c := readChar c
    let push := fun (r : List Char × Stream) => (c :: r.1, r.2)
    if comment then if c = '}' then ([c], ⟨cs, false⟩) else push (tokenLoop room true cs)
    else if c = '{' then push (tokenLoop room true cs)
    else if c = '.' then ([c], ⟨cs, false⟩)
    else if c = ' ' then ([], ⟨cs, false⟩)
    else push (tokenLoop room false cs)

/-- `get_movetext_token(fp, buf, bufsize)` -/
def getMovetextToken (fp : Stream) (bufsize : Nat) : List Char × Stream :=
  if fp.eof then ([], fp) else tokenLoop (bufsize - 1) false fp.rest

/-- Reading a token brings the end of the file nearer. -/
theorem tokenLoop_left (room : Nat) (comment : Bool) (s : List Char) :
    (tokenLoop (room + 1) comment s).2.left < s.length + 1 ∧
      (tokenLoop room comment s).2.left ≤ s.length + 1 := by
  have hend : (Stream.mk [] true).left = 0 := rfl
  have hrest : ∀ cs : List Char, (Stream.mk cs false).left = cs.length + 1 := fun _ => rfl
  induction s generalizing room comment with
  | nil =>
    cases room with
    | zero => exact ⟨Nat.zero_lt_one, Nat.le_refl 1⟩
    | succ room => exact ⟨Nat.zero_lt_one, Nat.zero_le 1⟩
  | cons c cs ih =>
    have hstep : ∀ room, (tokenLoop (room + 1) comment (c :: cs)).2.left ≤ cs.length + 1 := by
      intro room
      rw [tokenLoop]
      dsimp only
      split
      · split
        · exact (hrest cs).le
        · exact (ih room true).2
      · split
        · exact (ih room true).2
        · split
          · exact (hrest cs).le
          · split
            · exact (hrest cs).le
            · exact (ih room false).2
    refine ⟨Nat.lt_succ_of_le (hstep room), ?_⟩
    cases room with
    | zero => exact (hrest (c :: cs)).le
    | succ room => exact (hstep room).trans (Nat.le_succ _)

theorem getMovetextToken_left {fp : Stream} (h : fp.eof = false) :
    (getMovetextToken fp pgnBufsize).2.left < fp.left := by
  obtain ⟨rest, eof⟩ := fp
  cases h
  exact (tokenLoop_left 1022 false rest).1

/-- Lines are dropped up to the first that begins with a bracket; a file without one ends in
its last line.  `false` is returned where no line is left. -/
def skipToTag (buf : List Char) (fp : Stream) : Except Stream (List Char × Stream) :=
  if fp.eof then .ok (buf, fp)
  else
    match _h : fgets pgnBufsize fp with
    | (none, fp') => .error fp'
    | (some l, fp') => if l.head? = some '[' then .ok (l, fp') else skipToTag l fp'
termination_by fp.rest.length
decreasing_by exact fgets_rest_lt ‹_›

/-- `strtok_r(p, " \"]\n\r", ..)` and `strtok_r(NULL, "\"\n\r", ..)` after the bracket. -/
def readTag (buf : List Char) : Option (List Char × List Char) := do
  let p := (cstr buf).tail.dropWhile (fun c => c = ' ')
  let (tag, rest) ← strtok (fun c => c = ' ' || c = '"' || c = ']' || c = '\n' || c = '\r') p
  let (val, _) ← strtok (fun c => c = '"' || c = '\n' || c = '\r') rest
  return (tag, val)

/-- The loop over the tag lines, the first of which is in the buffer. -/
def readTags (tags : List Char → List Char) (buf : List Char) (fp : Stream) :
    Except Stream ((List Char → List Char) × Stream) :=
  if fp.eof then .ok (tags, fp)
  else if buf.head? ≠ some '[' then .ok (tags, fp)
  else
    match readTag buf with
    | none => .error fp
    | some (tag, val) =>
      match _h : fgets pgnBufsize fp with
      | (none, fp') => .error fp'
      | (some l, fp') => readTags (Function.update tags tag val) l fp'
termination_by fp.rest.length
decreasing_by exact fgets_rest_lt ‹_›

section Read

variable {Brd Mov : Type} [PgnBoard Brd Mov]

/-- The board that is set up, and whether its FEN is accepted. -/
def readOpening (tags : List Char → List Char) : Brd × Bool :=
  PgnBoard.parseFen (if tags "FEN".toList ≠ [] then String.ofList (tags "FEN".toList)
    else PgnBoard.openingFen Brd)

def resultTokens : List (List Char) :=
  ["1-0".toList, "0-1".toList, "1/2-1/2".toList, "*".toList]

/-- Tokens are compared as `strcmp` does. -/
instance lawfulBEq_token : LawfulBEq (List Char) := inferInstance

/-- The moves that were read, what is returned, and where the file stands. -/
structure MovesRead (Mov : Type) where
  moves : List Mov
  ok : Bool
  fp : Stream

/-- The loop over the tokens. -/
def readMoves (board : Brd) (moves : List Mov) (fp : Stream) : MovesRead Mov :=
  if _h : fp.eof = true then ⟨moves, true, fp⟩
  else
    let tok := cstr (getMovetextToken fp pgnBufsize).1
    let fp' := (getMovetextToken fp pgnBufsize).2
    if tok = [] then readMoves board moves fp'
    else if tok.getLast? = some '.' then readMoves board moves fp'
    else if tok.head? = some '{' then readMoves board moves fp'
    else if tok.head? = some '$' then readMoves board moves fp'
    else if tok ∈ resultTokens then ⟨moves, true, fp'⟩
    else
      match PgnBoard.parseMove1 board tok with
      | none => ⟨moves, false, fp'⟩
      | some mov => readMoves (PgnBoard.makeMove board mov) (moves ++ [mov]) fp'
termination_by fp.left
decreasing_by all_goals exact getMovetextToken_left (Bool.eq_false_iff.mpr _h)

/-- What `parse` leaves in the object, what it returns, and where the file stands. -/
structure Parsed (Brd Mov : Type) where
  pgn : Pgn Brd Mov
  ok : Bool
  fp : Stream

/-- `parse(fp)` -/
def parse (fp : Stream) : Parsed Brd Mov :=
  match skipToTag [] fp with
  | .error fp => ⟨⟨PgnBoard.clear, []⟩, false, fp⟩
  | .ok (buf, fp) =>
    match readTags (fun _ => []) buf fp with
    | .error fp => ⟨⟨PgnBoard.clear, []⟩, false, fp⟩
    | .ok (tags, fp) =>
      let (opening, accepted) := readOpening tags
      if accepted then
        let r : MovesRead Mov := readMoves opening [] fp
        ⟨⟨opening, r.moves⟩, r.ok, r.fp⟩
      else ⟨⟨opening, []⟩, false, fp⟩

end Read

/-! ## What is read can be played -/

section Playable

variable [Build]

/-- `parse_move_1` looks at what `create_from_pgn` asserts. -/
theorem asserted_of_parseMove1 {b : Board} {tok : List Char} {mov : Move}
    (h : PgnBoard.parseMove1 b tok = some mov) :
    b.isValidMove mov = true ∧ b.isLegalMove mov = true := by
  have hparse : (if b.parseMove1 tok = .noMove then none else some (b.parseMove1 tok)) = some mov := h
  split at hparse
  · cases hparse
  · rename_i hne
    obtain rfl := Option.some.inj hparse
    unfold Board.parseMove1 at hne ⊢
    simp only at hne ⊢
    split at hne
    · rename_i hasserted
      rw [if_pos hasserted]
      exact hasserted.2
    · exact absurd rfl hne

theorem readMoves_playable (board : Board) (moves : List Move) (fp : Stream) :
    ∃ rest, (readMoves board moves fp).moves = moves ++ rest ∧ Book.Playable board rest := by
  fun_induction readMoves board moves fp with
  | case1 | case6 | case7 => exact ⟨[], (List.append_nil _).symm, trivial⟩
  | case2 _ _ _ _ _ _ _ ih => exact ih
  | case3 _ _ _ _ _ _ _ _ ih => exact ih
  | case4 _ _ _ _ _ _ _ _ _ ih => exact ih
  | case5 _ _ _ _ _ _ _ _ _ _ ih => exact ih
  | case8 _ _ _ _ _ _ _ _ _ _ _ mov hmov ih =>
    obtain ⟨rest, hrest, hplay⟩ := ih
    exact ⟨mov :: rest, by rw [hrest, List.append_assoc]; rfl, asserted_of_parseMove1 hmov, hplay⟩

/-- **The moves of a parsed game pass the assertions of `create_from_pgn`.** -/
theorem playable_parse (fp : Stream) :
    Book.Playable (parse fp : Parsed Board Move).pgn.opening (parse fp : Parsed Board Move).pgn.moves := by
  unfold parse
  split
  · trivial
  · split
    · trivial
    · simp only
      split
      · obtain ⟨rest, hrest, hplay⟩ := readMoves_playable (readOpening _).1 [] _
        rw [hrest]
        exact hplay
      · trivial

/-- So the games that are read go into the map. -/
theorem readPgns_parsed (depth : BitVec 32) (fps : List Stream) :
    Book.readPgns depth (fps.map fun fp => (parse fp : Parsed Board Move).pgn) =
      some ((Book.recordedMoves depth (fps.map fun fp => (parse fp : Parsed Board Move).pgn)).foldl
        Book.pushBack .empty) := by
  refine Book.readPgns_eq depth fun pgn hpgn => ?_
  obtain ⟨fp, _, rfl⟩ := List.mem_map.mp hpgn
  exact playable_parse fp

end Playable

end Pgn

end HoiChess
