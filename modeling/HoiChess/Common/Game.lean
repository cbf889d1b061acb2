import HoiChess.Lib.Run
import HoiChess.Lib.History
import HoiChess.Common.Clock
import HoiChess.Chess.Validity

/-!
# Games

A game keeps the board it started from, the current board, one entry for each
move played and one for each move undone, two sets of clocks and the result.
The entries are a playable line as long as redo finds what undo left
(`game_replayable_iff`): `set_board` clears the entries, but keeps the undone
ones, and a rejected FEN clears the entries, but keeps the boards.  Boards and
moves of a game are a history with undo and redo (`step_history`), the clocks
and results go along.
-/

namespace HoiChess

open Chess Run

namespace Chess.Board

def lightBitboard : Bitboard := 0x55aa55aa55aa55aa#64
def darkBitboard : Bitboard := 0xaa55aa55aa55aa55#64

/-- `is_material_draw()` -/
def isMaterialDraw (b : Board) : Bool :=
  let wn := b.pos .white .knight
  let bn := b.pos .black .knight
  let wb := b.pos .white .bishop
  let bb := b.pos .black .bishop
  let bishopsOn := fun squares => Bitboard.any ((wb &&& squares) ||| (bb &&& squares))
  if b.material.white = 0 && b.material.black = 0 then true
  else if Bitboard.any (b.pos .white .pawn) || Bitboard.any (b.pos .black .pawn) ||
      Bitboard.any (b.pos .white .rook) || Bitboard.any (b.pos .black .rook) ||
      Bitboard.any (b.pos .white .queen) || Bitboard.any (b.pos .black .queen) then false
  else if Bitboard.popcnt (wn ||| bn) = 1 && !Bitboard.any wb && !Bitboard.any bb then true
  else if Bitboard.popcnt (wb ||| bb) = 1 && !Bitboard.any wn && !Bitboard.any bn then true
  else !Bitboard.any wn && !Bitboard.any bn &&
    (!bishopsOn lightBitboard || !bishopsOn darkBitboard)

/-- `operator==`: pieces, side, castling flags and en passant square. -/
def sameAs (b b' : Board) : Bool :=
  b.position = b'.position && b.side = b'.side && b.flags = b'.flags && b.epsq = b'.epsq

end Chess.Board

/-- The results of a chess game. -/
inductive GameResult where
  | open
  | whitemates
  | blackmates
  | stalemate
  | rule50
  | reps3
  | material
  | illegal
  deriving DecidableEq, Repr

structure GameEntry where
  board : Board
  move : Move
  clock : PerColor Clock
  flags : BitVec 32
  deriving DecidableEq

structure Game where
  initialBoard : Board
  initialClock : PerColor Clock
  currentBoard : Board
  currentClock : PerColor Clock
  oldClock : PerColor Clock
  entries : List GameEntry
  undoneEntries : List GameEntry
  running : Bool
  result : GameResult
  resultStr : String
  resultComment : String

/-- The board of an entry and the move played there. -/
def GameEntry.played (e : GameEntry) : Board × Move := (e.board, e.move)

namespace Game

/-- A game from `board` on, with a clock for each side. -/
def construct (board : Board) (wclock bclock : Clock) : Game where
  initialBoard := board
  initialClock := ⟨wclock, bclock⟩
  currentBoard := board
  currentClock := ⟨wclock, bclock⟩
  oldClock := ⟨wclock, bclock⟩
  entries := []
  undoneEntries := []
  running := false
  result := .open
  resultStr := ""
  resultComment := ""

variable (g : Game)

def getSide : Color := g.currentBoard.side

/-- How often a board equal to `board` is in the entries. -/
def repetitions (board : Board) : Nat := g.entries.countP (fun e => e.board.sameAs board)

def startClock (now : Realtime) : Game :=
  { g with currentClock := g.currentClock.set g.getSide ((g.currentClock.get g.getSide).start now) }

def stopClock (now : Realtime) : Game :=
  { g with currentClock := g.currentClock.set g.getSide ((g.currentClock.get g.getSide).stop now) }

/-- `old_clock[WHITE].stop(); old_clock[BLACK].stop();` -/
def stopOldClocks (nw nb : Realtime) : Game :=
  { g with oldClock := ⟨g.oldClock.white.stop nw, g.oldClock.black.stop nb⟩ }

/-- `set_result(..)`, the three assignments of `check_result`. -/
def setResult (result : GameResult) (str comment : String) : Game :=
  { g with result := result, resultStr := str, resultComment := comment }

section Operations

variable [Build]

def checkResult : Game :=
  let board := g.currentBoard
  if board.isMate then
    if board.side = .white then g.setResult .blackmates "0-1" "Black mates"
    else g.setResult .whitemates "1-0" "White mates"
  else if board.isStalemate then g.setResult .stalemate "1/2-1/2" "Stalemate"
  else if board.movecnt50 = 100 then g.setResult .rule50 "1/2-1/2" "50 move rule"
  else if g.repetitions board ≥ 2 then g.setResult .reps3 "1/2-1/2" "3 repetitions"
  else if board.isMaterialDraw then g.setResult .material "1/2-1/2" "Insufficient material"
  else g.setResult .open "*" "Open"

/-- `check_result()` and what follows it: the clock of the side to move goes
on unless the game is over. -/
def continueOrEnd (now : Realtime) : Game :=
  let g := g.checkResult
  if g.result = .open then { g.startClock now with running := true }
  else { g with running := false }

/-- `start()` -/
def start (now : Realtime) : Game := { g.startClock now with running := true }

/-- `make_move(mov, flags)`; `now i` is what the `i`-th look at the system time tells. -/
def makeMove (mov : Move) (flags : BitVec 32) (now : Nat → Realtime) : Game :=
  let g := g.stopClock (now 0)
  let entry : GameEntry := ⟨g.currentBoard, mov, g.oldClock, flags⟩
  let g := { g with entries := g.entries ++ [entry],
                    currentBoard := g.currentBoard.makeMove mov,
                    oldClock := g.currentClock }
  let g := g.continueOrEnd (now 1)
  { g with undoneEntries := [] }

/-- `undo_move()` -/
def undoMove (now : Nat → Realtime) : Game × Bool :=
  match g.entries.getLast? with
  | none => ({ g with running := false }, false)
  | some last =>
    let g := { g with entries := g.entries.dropLast }
    let g := g.stopOldClocks (now 0) (now 1)
    let undone : GameEntry := ⟨g.currentBoard, last.move, g.oldClock, last.flags⟩
    let g := { g with undoneEntries := undone :: g.undoneEntries,
                      currentBoard := last.board,
                      oldClock := last.clock,
                      currentClock := last.clock }
    ({ g.startClock (now 2) with running := true, result := .open }, true)

/-- `redo_move()` -/
def redoMove (now : Nat → Realtime) : Game × Move :=
  match g.undoneEntries with
  | [] => (g, .noMove)
  | undone :: rest =>
    let g := { g with undoneEntries := rest }
    let g := (g.stopClock (now 0)).stopOldClocks (now 1) (now 2)
    let entry : GameEntry := ⟨g.currentBoard, undone.move, g.oldClock, undone.flags⟩
    let g := { g with entries := g.entries ++ [entry],
                      currentBoard := undone.board,
                      currentClock := undone.clock,
                      oldClock := undone.clock }
    (g.continueOrEnd (now 3), undone.move)

/-- `set_board(board)` -/
def setBoard (board : Board) : Game :=
  let g := { g with initialBoard := board, currentBoard := board,
                    oldClock := g.initialClock, currentClock := g.initialClock,
                    entries := [], running := false }
  g.checkResult

/-- `set_board(fen)`.  A FEN that puts a man off the board has no defined
outcome; here it counts as rejected. -/
def setBoardFen (fen : String) : Game × Bool :=
  match Board.parseFen fen with
  | .accepted board => (g.setBoard board, true)
  | .rejected | .undefined =>
    ({ g with entries := [], running := false, result := .illegal }, false)

/-- `set_clocks(wclock, bclock)` -/
def setClocks (wclock bclock : Clock) (now : Realtime) : Game :=
  let g := { g with initialClock := ⟨wclock, bclock⟩, oldClock := ⟨wclock, bclock⟩,
                    currentClock := ⟨wclock, bclock⟩ }
  if g.running then g.startClock now else g

end Operations

end Game

/-- A call of one of the public operations. -/
inductive GameOp where
  | makeMove (mov : Move) (flags : BitVec 32) (now : Nat → Realtime)
  | undoMove (now : Nat → Realtime)
  | redoMove (now : Nat → Realtime)
  | setBoard (board : Board)
  | setBoardFen (fen : String)
  | setClocks (wclock bclock : Clock) (now : Realtime)
  | start (now : Realtime)

namespace Game

section Runs

variable [Build]

def step (g : Game) : GameOp → Game
  | .makeMove mov flags now => g.makeMove mov flags now
  | .undoMove now => (g.undoMove now).1
  | .redoMove now => (g.redoMove now).1
  | .setBoard board => g.setBoard board
  | .setBoardFen fen => (g.setBoardFen fen).1
  | .setClocks wclock bclock now => g.setClocks wclock bclock now
  | .start now => g.start now

/-- Boards and moves of a game. -/
def history (g : Game) : History Board Move where
  start := g.initialBoard
  entries := g.entries.map GameEntry.played
  current := g.currentBoard
  undone := g.undoneEntries.map (fun e => (e.move, e.board))

/-- What a call does to boards and moves. -/
def historyOp : GameOp → History.Op Board Move
  | .makeMove mov _ _ => .play mov
  | .undoMove _ => .undo
  | .redoMove _ => .redo
  | .setBoard board => .restart board
  | .setBoardFen fen =>
    match Board.parseFen fen with
    | .accepted board => .restart board
    | .rejected | .undefined => .drop
  | .setClocks _ _ _ => .keep
  | .start _ => .keep

theorem history_checkResult (g : Game) : g.checkResult.history = g.history := by
  unfold checkResult
  simp only
  split
  · split <;> rfl
  split
  · rfl
  split
  · rfl
  split
  · rfl
  split <;> rfl

theorem history_continueOrEnd (g : Game) (now : Realtime) :
    (g.continueOrEnd now).history = g.history := by
  rw [← history_checkResult g]
  unfold continueOrEnd
  simp only
  split <;> rfl

theorem history_makeMove (g : Game) (mov : Move) (flags : BitVec 32) (now : Nat → Realtime) :
    (g.makeMove mov flags now).history = g.history.step Board.makeMove (.play mov) := by
  have h : (g.makeMove mov flags now).history =
      { (continueOrEnd { g.stopClock (now 0) with
          entries := g.entries ++ [⟨g.currentBoard, mov, g.oldClock, flags⟩],
          currentBoard := g.currentBoard.makeMove mov,
          oldClock := (g.stopClock (now 0)).currentClock } (now 1)).history with undone := [] } :=
    rfl
  rw [h, history_continueOrEnd]
  simp [history, History.step, GameEntry.played, stopClock]

theorem history_undoMove (g : Game) (now : Nat → Realtime) :
    (g.undoMove now).1.history = g.history.step Board.makeMove .undo := by
  unfold undoMove
  simp only [History.step, history, List.getLast?_map]
  cases h : g.entries.getLast? with
  | none => rfl
  | some last => simp [startClock, stopOldClocks, GameEntry.played]

theorem history_redoMove (g : Game) (now : Nat → Realtime) :
    (g.redoMove now).1.history = g.history.step Board.makeMove .redo := by
  unfold redoMove
  cases h : g.undoneEntries with
  | nil => simp [History.step, history, h]
  | cons undone rest =>
    simp only [history_continueOrEnd]
    simp [History.step, history, h, GameEntry.played, stopOldClocks, stopClock]

theorem history_setBoard (g : Game) (board : Board) :
    (g.setBoard board).history = g.history.step Board.makeMove (.restart board) := by
  unfold setBoard
  rw [history_checkResult]
  rfl

/-- **What the operations do to boards and moves.** -/
theorem step_history (g : Game) (op : GameOp) :
    (g.step op).history = g.history.step Board.makeMove (historyOp op) := by
  cases op with
  | makeMove mov flags now => exact history_makeMove g mov flags now
  | undoMove now => exact history_undoMove g now
  | redoMove now => exact history_redoMove g now
  | setBoard board => exact history_setBoard g board
  | setBoardFen fen =>
    simp only [step, historyOp, setBoardFen]
    cases Board.parseFen fen with
    | accepted board => exact history_setBoard g board
    | rejected => rfl
    | undefined => rfl
  | setClocks wclock bclock now =>
    simp only [step, historyOp, setClocks]
    split <;> rfl
  | start now => rfl

/-! ## When a game is a playable line -/

variable (legal : Board → Move → Prop)

/-- Playing the moves of the entries from the initial board visits the boards
of the entries and ends in the current one, and every move is legal there. -/
def Replayable (g : Game) : Prop :=
  Replays Board.makeMove legal g.initialBoard (g.entries.map GameEntry.played) g.currentBoard

/-- Moves are legal when they are made, and a FEN leads to a defined outcome. -/
def Allowed (g : Game) : GameOp → Prop
  | .makeMove mov _ _ => legal g.currentBoard mov
  | .setBoardFen fen => Board.parseFen fen ≠ .undefined
  | _ => True

/-- The first undone entry continues the current board, and a FEN is rejected
only where the game started. -/
def Fits (g : Game) : GameOp → Prop
  | .redoMove _ => ∀ e ∈ g.undoneEntries.head?,
      legal g.currentBoard e.move ∧ g.currentBoard.makeMove e.move = e.board
  | .setBoardFen fen => Board.parseFen fen = .rejected → g.initialBoard = g.currentBoard
  | _ => True

variable {legal}

theorem allowed_historyOp {g : Game} {op : GameOp} (ha : g.Allowed legal op) :
    g.history.Allowed legal (historyOp op) := by
  cases op with
  | makeMove mov flags now => exact ha
  | setBoardFen fen =>
    simp only [historyOp]
    split <;> trivial
  | _ => trivial

theorem fits_historyOp {g : Game} {op : GameOp} (ha : g.Allowed legal op) :
    g.history.Fits Board.makeMove legal (historyOp op) ↔ g.Fits legal op := by
  cases op with
  | redoMove now => simp [historyOp, History.Fits, Fits, history, List.head?_map]
  | setBoardFen fen =>
    have hdef : Board.parseFen fen ≠ .undefined := ha
    simp only [historyOp, Fits]
    cases h : Board.parseFen fen with
    | accepted board => simp [History.Fits]
    | rejected => simp [History.Fits, history]
    | undefined => exact absurd h hdef
  | _ => exact Iff.rfl

/-- **Exactly when a call keeps the game a playable line.** -/
theorem step_replayable_iff {g : Game} (hr : g.Replayable legal) {op : GameOp}
    (ha : g.Allowed legal op) : (g.step op).Replayable legal ↔ g.Fits legal op := by
  have hstep : (g.step op).Replayable legal ↔
      (g.history.step Board.makeMove (historyOp op)).Replayable Board.makeMove legal := by
    rw [← step_history]
    rfl
  have hrh : g.history.Replayable Board.makeMove legal := hr
  rw [hstep, History.step_replayable_iff hrh (allowed_historyOp ha), fits_historyOp ha]

/-- **As long as no board is set over undone moves and no FEN rejected over
entries, everything that is redone fits.** -/
theorem along_fits_of_tidy {board : Board} {wclock bclock : Clock} {ops : List GameOp}
    (h : Along step (Allowed legal) (construct board wclock bclock) ops)
    (ht : Along step (fun g op => g.history.Tidy (historyOp op))
      (construct board wclock bclock) ops) :
    Along step (Fits legal) (construct board wclock bclock) ops := by
  have hstart : (construct board wclock bclock).history.Whole Board.makeMove legal :=
    ⟨rfl, trivial⟩
  refine (h.and ht).of_invariant (P := fun g => g.history.Whole Board.makeMove legal) hstart
    fun g op hw hq => ⟨?_, ?_⟩
  · rw [step_history]
    exact hw.step (allowed_historyOp hq.1) hq.2
  · exact (fits_historyOp hq.1).mp (hw.fits hq.2)

/-- **When every state of a game is a playable line**, for any notion of a legal move. -/
theorem game_replayable_iff (board : Board) (wclock bclock : Clock) (ops : List GameOp)
    (h : Along step (Allowed legal) (construct board wclock bclock) ops) :
    Visits step (Replayable legal) (construct board wclock bclock) ops ↔
      Along step (Fits legal) (construct board wclock bclock) ops :=
  visits_iff_along rfl h fun _ _ hr ha => step_replayable_iff hr ha

/-- What the assertions of `make_move` ask for. -/
def Asserted (b : Board) (mov : Move) : Prop :=
  b.isValidMove mov = true ∧ b.isLegalMove mov = true

end Runs

/-- The advance of the king's pawn. -/
def kingsPawn : Move := .normal 12 28 (some .pawn)

theorem kingsPawn_asserted : ∃ b, @Board.parseFen sampleBuild openingFen = .accepted b ∧
    @Asserted sampleBuild b kingsPawn := by
  let _ := sampleBuild
  have hrun : (Board.parseFen openingFen).holds
      (fun b => b.isValidMove kingsPawn && b.isLegalMove kingsPawn) = true := by
    decide +kernel
  obtain ⟨b, hb, hmov⟩ := FenResult.holds_eq_true.mp hrun
  exact ⟨b, hb, (Bool.and_eq_true _ _).mp hmov⟩

/-- The answer to it. -/
def kingsPawnBack : Move := .normal 52 36 (some .pawn)

theorem openGame_asserted : ∃ b, @Board.parseFen sampleBuild openingFen = .accepted b ∧
    @Asserted sampleBuild b kingsPawn ∧
      @Asserted sampleBuild (@Board.makeMove sampleBuild b kingsPawn) kingsPawnBack := by
  let _ := sampleBuild
  have hrun : (Board.parseFen openingFen).holds (fun b =>
      (b.isValidMove kingsPawn && b.isLegalMove kingsPawn) &&
      ((b.makeMove kingsPawn).isValidMove kingsPawnBack &&
        (b.makeMove kingsPawn).isLegalMove kingsPawnBack)) = true := by
    decide +kernel
  obtain ⟨b, hb, hmoves⟩ := FenResult.holds_eq_true.mp hrun
  obtain ⟨hfirst, hsecond⟩ := (Bool.and_eq_true _ _).mp hmoves
  exact ⟨b, hb, (Bool.and_eq_true _ _).mp hfirst, (Bool.and_eq_true _ _).mp hsecond⟩

/-- After one move a FEN is rejected: the game is back at no entries, but not at its start. -/
theorem not_replayable_after_rejected_fen : ∃ b, @Board.parseFen sampleBuild openingFen = .accepted b ∧
    ∃ ops, Along (@step sampleBuild) (@Allowed sampleBuild (@Asserted sampleBuild))
        (construct b .untimed .untimed) ops ∧
      ¬ Visits (@step sampleBuild) (@Replayable sampleBuild (@Asserted sampleBuild))
        (construct b .untimed .untimed) ops := by
  let _ := sampleBuild
  obtain ⟨b, hb, hmov⟩ := kingsPawn_asserted
  have hfen : Board.parseFen "" = .rejected := by decide +kernel
  refine ⟨b, hb, [.makeMove kingsPawn 0 (fun _ => 0), .setBoardFen ""], ⟨hmov, ?_, trivial⟩, ?_⟩
  · rw [Allowed, hfen]
    exact FenResult.noConfusion
  · rintro ⟨_, _, h⟩
    have hend : b = b.makeMove kingsPawn := by
      have hh : (Game.step (Game.step (construct b .untimed .untimed)
          (.makeMove kingsPawn 0 (fun _ => 0))) (.setBoardFen "")).history.Replayable
            Board.makeMove Asserted := h
      rw [step_history, step_history] at hh
      simp only [historyOp, hfen] at hh
      exact hh
    have hside := makeMove_side b kingsPawn
    rw [← hend] at hside
    exact ne_xside b.side hside

/-- A move is made, undone and redone. -/
theorem replayable_make_undo_redo : ∃ b, @Board.parseFen sampleBuild openingFen = .accepted b ∧
    Visits (@step sampleBuild) (@Replayable sampleBuild (@Asserted sampleBuild))
      (construct b .untimed .untimed)
      [.makeMove kingsPawn 0 (fun _ => 0), .undoMove (fun _ => 0), .redoMove (fun _ => 0)] := by
  let _ := sampleBuild
  obtain ⟨b, hb, hmov⟩ := kingsPawn_asserted
  have hallowed : Along step (Allowed Asserted) (construct b .untimed .untimed)
      [.makeMove kingsPawn 0 (fun _ => 0), .undoMove (fun _ => 0), .redoMove (fun _ => 0)] :=
    ⟨hmov, trivial, trivial, trivial⟩
  exact ⟨b, hb, (game_replayable_iff b .untimed .untimed _ hallowed).mpr
    (along_fits_of_tidy hallowed ⟨trivial, trivial, trivial, trivial⟩)⟩

end Game

end HoiChess
