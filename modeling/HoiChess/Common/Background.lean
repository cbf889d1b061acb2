import HoiChess.Common.GameClocks
import HoiChess.Lib.Transition

/-!
# Searching in the background

While the user thinks, the shell may have a thread that searches the shell's own game.  A command
calls `stop_search` before it touches what the thread reads, and the main loop calls `start` only
where there is no thread; SIGINT and the thread itself come at any time.  No assertion of `start`
and of `thread_main` fails (`searches_apart`), a thread finds the game as it was when it was started
(`game_kept`), and a request to stop is not lost while the shell waits for it (`stop_returns`).
What an unreadable line of a script does is another matter: the shell leaves with the thread
running (`left_with_thread`).
-/

namespace HoiChess

open Chess Transition

/-- A thread that has not taken its arguments, that is in `main()`, and that has returned. -/
inductive Worker where
  | created
  | searching
  | finished
  deriving DecidableEq

/-- The members of `Search` that start and stop it; `busy` is `game != NULL`. -/
structure SearchControl where
  stop : Bool
  busy : Bool
  thread : Option Worker
  deriving DecidableEq

namespace SearchControl

variable (c : SearchControl)

/-- `Search::Search()` -/
def fresh : SearchControl := ⟨false, false, none⟩

/-- `start_thread(..)` -/
def startThread : SearchControl :=
  match c.thread with
  | none => { c with stop := false, thread := some .created }
  | some _ => c

/-- `start(..)` up to `main()` -/
def start : SearchControl := { c with busy := true, stop := false }

/-- `start(..)` after `main()` -/
def finish : SearchControl := { c with busy := false }

def interrupt : SearchControl := { c with stop := true }

/-- `thread_main(..)` up to `main()` -/
def threadMain : SearchControl := { c with busy := true, thread := some .searching }

/-- `thread_main(..)` after `main()` -/
def threadReturn : SearchControl := { c with busy := false, thread := some .finished }

/-- `stop_thread()` after `thread->wait()` -/
def deleteThread : SearchControl := { c with thread := none }

end SearchControl

/-- The members of `Shell` that the main loop and the commands decide on. -/
structure Shell where
  quit : Bool
  stop : Bool
  flagForce : Bool
  flagPonder : Bool
  flagAnalyze : Bool
  flagPlayboth : Bool
  myside : Option Color
  parallel : Nat
  game : Game
  search : SearchControl

/-- The commands that change something of this, with what they have read.  `setClocks` is `level`
and `st`, `resize` sets the size of a table, and what has no effect here is `other`. -/
inductive Command where
  | new
  | quit
  | force
  | go (now : Realtime)
  | setClocks (clock : Clock) (now : Realtime)
  | time (csecs : BitVec 32)
  | otim (csecs : BitVec 32)
  | usermove (mov : Option Move) (now : Nat → Realtime)
  | setboard (fen : Option String)
  | undo (all : Bool) (now : Nat → Nat → Realtime)
  | remove (now : Nat → Nat → Realtime)
  | redo (all : Bool) (now : Nat → Nat → Realtime)
  | hard
  | easy
  | analyze
  | exit
  | cores (n : Nat)
  | solve
  | resize
  | playboth
  | loadgame (g : Game)
  | other

namespace Shell

section Commands

variable [Build] (s : Shell)

/-- `input_move` accepts what was read as a move. -/
def accepts : Option Move → Bool
  | none => false
  | some _ => s.game.result = .open && some s.game.getSide ≠ s.myside

/-- `cores N` -/
def coresOf (n : Nat) : Nat := if n = 0 then 1 else if n = 1 then 0 else n

/-- Whether a command calls `stop_search`. -/
def stops : Command → Bool
  | .quit | .hard | .setClocks .. | .time _ | .otim _ | .other => false
  | .usermove mov _ => s.accepts mov
  | .cores n => coresOf n ≠ s.parallel
  | _ => true

/-- `while (game->undo_move()) {}` -/
def undoAll (now : Nat → Nat → Realtime) : Nat → Game → Game
  | 0, g => g
  | i + 1, g =>
    match g.undoMove (now i) with
    | (g, true) => undoAll now i g
    | (g, false) => g

/-- `do .. game->redo_move() .. while (mov0)` -/
def redoAll (now : Nat → Nat → Realtime) : Nat → Game → Game
  | 0, g => g
  | i + 1, g =>
    match g.undoneEntries with
    | [] => g
    | _ :: _ => redoAll now i (g.redoMove (now i)).1

/-- `cmd_force()` after it has stopped the search -/
def force : Shell := { s with flagForce := true, flagPlayboth := false, myside := none }

/-- What a command does, or what is left of it when the search has been stopped. -/
def exec : Command → Shell
  | .new =>
    if s.flagAnalyze then { s with game := (s.game.setBoardFen openingFen).1 }
    else { s with game := (s.game.setBoardFen openingFen).1, flagForce := false,
                  myside := some .black }
  | .quit => { s with quit := true }
  | .force => s.force
  | .go now =>
    { s with flagForce := false, flagPlayboth := false, myside := some s.game.getSide,
             game := s.game.turnBackClock now }
  | .setClocks clock now => { s with game := s.game.setClocks clock clock now }
  | .time csecs =>
    match s.myside with
    | none => s
    | some c => { s with game := s.game.setRemainingTime c csecs }
  | .otim csecs =>
    match s.myside with
    | none => s
    | some c => { s with game := s.game.setRemainingTime c.xside csecs }
  | .usermove mov now =>
    match mov with
    | none => s
    | some mov => if s.accepts (some mov) then { s with game := s.game.makeMove mov 0 now } else s
  | .setboard fen =>
    match fen with
    | none => s
    | some fen => { s with game := (s.game.setBoardFen fen).1 }
  | .undo all now =>
    if all then { s with game := undoAll now (s.game.entries.length + 1) s.game }
    else { s with game := (s.game.undoMove (now 0)).1 }
  | .remove now => { s with game := ((s.game.undoMove (now 0)).1.undoMove (now 1)).1 }
  | .redo all now =>
    if all then { s with game := redoAll now s.game.undoneEntries.length s.game }
    else { s with game := (s.game.redoMove (now 0)).1 }
  | .hard => { s with flagPonder := true }
  | .easy => { s with flagPonder := false }
  | .analyze => { s.force with flagAnalyze := true }
  | .exit => { s with flagAnalyze := false }
  | .cores n =>
    if coresOf n = s.parallel then s else { s with parallel := coresOf n, search := .fresh }
  | .playboth => { s with flagPlayboth := true, flagForce := false }
  | .loadgame g => { s with game := g }
  | .solve | .resize | .other => s

/-- `interrupt()`, which the SIGINT handler calls -/
def interrupt : Shell :=
  { s with search := s.search.interrupt, stop := true, flagPlayboth := false }

end Commands

/-- What the main loop chooses. -/
inductive Turn where
  | engine
  | search
  | none
  deriving DecidableEq

variable (s : Shell)

/-- The branches of the main loop; `search` is `engine_ponder` and `engine_analyze`. -/
def turn : Turn :=
  if s.game.result ≠ .open then .none
  else if s.flagPlayboth then .engine
  else if !s.flagForce && some s.game.getSide = s.myside then .engine
  else if s.flagPonder && !s.flagForce && s.game.running then .search
  else if s.flagAnalyze then .search
  else .none

/-- The beginning of `engine_move()` -/
def engineMove (now : Realtime) : Shell :=
  { s with stop := false, game := s.game.start now,
           myside := if s.flagPlayboth then some s.game.getSide else s.myside }

def startThread : Shell := { s with stop := false, search := s.search.startThread }

end Shell

/-- Where the shell's own thread is.  `none` stands for the end of the main loop where a command
would stand. -/
inductive ShellPos where
  | top
  | input
  | engine
  | thinking (solve : Bool)
  | solving
  | stopping (cmd : Option Command)
  | waiting (cmd : Option Command)
  | left
  | failed

structure Session where
  shell : Shell
  pos : ShellPos

/-- Who takes a step. -/
inductive Agent where
  | shell
  | worker
  | clock
  | sigint
  deriving DecidableEq

namespace Session

/-- When `main()` has called `cmd_new()`, whatever the commands before it have set. -/
def start (s : Shell) : Session := ⟨{ s with search := .fresh }, .top⟩

/-- What follows `stop_search`. -/
def afterStop [Build] (s : Shell) : Option Command → Session
  | none => ⟨s, .left⟩
  | some .solve => ⟨s, .solving⟩
  | some cmd => ⟨s.exec cmd, .top⟩

/-- A step of the shell, of the thread, of the clock, which may end any search, or of the user who
presses the interrupt key.  A move that is not valid and legal is a `BUG`, which aborts.  A line
that fails ends a script; `fail` is a line that has changed nothing, as the others have stopped the
search and leave no thread. -/
inductive Step [Build] : Session → Agent → Session → Prop
  | leave {s : Shell} (hq : s.quit = true) : Step ⟨s, .top⟩ .shell ⟨s, .stopping none⟩
  | engine {s : Shell} (now : Realtime) (hq : s.quit = false) (ht : s.turn = .engine) :
      Step ⟨s, .top⟩ .shell ⟨s.engineMove now, .engine⟩
  | background {s : Shell} (hq : s.quit = false) (ht : s.turn = .search) :
      Step ⟨s, .top⟩ .shell ⟨s.startThread, .input⟩
  | prompt {s : Shell} (hq : s.quit = false) (ht : s.turn = .none) :
      Step ⟨s, .top⟩ .shell ⟨{ s with stop := false }, .input⟩
  | command {s : Shell} (cmd : Command) (hs : s.stops cmd = false) :
      Step ⟨s, .input⟩ .shell ⟨s.exec cmd, .top⟩
  | stopping {s : Shell} (cmd : Command) (hs : s.stops cmd = true) :
      Step ⟨s, .input⟩ .shell ⟨s, .stopping (some cmd)⟩
  | fail {s : Shell} : Step ⟨s, .input⟩ .shell ⟨s, .failed⟩
  | played {s : Shell} (mov : Move) (flags : BitVec 32) (now : Nat → Realtime)
      (hmov : Game.Asserted s.game.currentBoard mov) :
      Step ⟨s, .engine⟩ .shell ⟨{ s with game := s.game.makeMove mov flags now }, .top⟩
  | start {s : Shell} : Step ⟨s, .engine⟩ .shell ⟨{ s with search := s.search.start }, .thinking false⟩
  | found {s : Shell} (mov : Move) (flags : BitVec 32) (now : Nat → Realtime)
      (hmov : Game.Asserted s.game.currentBoard mov) :
      Step ⟨s, .thinking false⟩ .shell
        ⟨{ s with search := s.search.finish, game := s.game.makeMove mov flags now }, .top⟩
  | record {s : Shell} : Step ⟨s, .solving⟩ .shell ⟨{ s with search := s.search.start }, .thinking true⟩
  | solved {s : Shell} :
      Step ⟨s, .thinking true⟩ .shell ⟨{ s with search := s.search.finish }, .solving⟩
  | solveDone {s : Shell} : Step ⟨s, .solving⟩ .shell ⟨s, .top⟩
  | noThread {s : Shell} {cmd : Option Command} (ht : s.search.thread = none) :
      Step ⟨s, .stopping cmd⟩ .shell (afterStop s cmd)
  | wait {s : Shell} {cmd : Option Command} (ht : s.search.thread.isSome = true) :
      Step ⟨s, .stopping cmd⟩ .shell ⟨{ s with search := s.search.interrupt }, .waiting cmd⟩
  | join {s : Shell} {cmd : Option Command} (ht : s.search.thread = some .finished) :
      Step ⟨s, .waiting cmd⟩ .shell (afterStop { s with search := s.search.deleteThread } cmd)
  | threadMain {s : Shell} {p : ShellPos} (ht : s.search.thread = some .created) :
      Step ⟨s, p⟩ .worker ⟨{ s with search := s.search.threadMain }, p⟩
  | threadReturn {s : Shell} {p : ShellPos} (ht : s.search.thread = some .searching) :
      Step ⟨s, p⟩ .worker ⟨{ s with search := s.search.threadReturn }, p⟩
  | timeout {s : Shell} {p : ShellPos} (hb : s.search.busy = true) :
      Step ⟨s, p⟩ .clock ⟨{ s with search := s.search.interrupt }, p⟩
  | sigint {s : Shell} {p : ShellPos} : Step ⟨s, p⟩ .sigint ⟨s.interrupt, p⟩

end Session

/-! ## The shell leaves a running thread its game -/

/-- What a search reads of a game. -/
structure Kept (g g' : Game) : Prop where
  initialBoard : g'.initialBoard = g.initialBoard
  entries : g'.entries = g.entries
  currentBoard : g'.currentBoard = g.currentBoard
  result : g'.result = g.result

theorem Kept.refl (g : Game) : Kept g g := ⟨rfl, rfl, rfl, rfl⟩

theorem Kept.trans {g g' g'' : Game} (h : Kept g g') (h' : Kept g' g'') : Kept g g'' :=
  ⟨h'.1.trans h.1, h'.2.trans h.2, h'.3.trans h.3, h'.4.trans h.4⟩

theorem kept_setClocks (g : Game) (w b : Clock) (now : Realtime) : Kept g (g.setClocks w b now) := by
  unfold Game.setClocks
  simp only
  split <;> exact ⟨rfl, rfl, rfl, rfl⟩

namespace Shell

variable [Build] {s s' : Shell} {cmd : Command}

/-- The engine is to move. -/
def EngineTurn (s : Shell) : Prop :=
  s.game.result = .open ∧
    (s.flagPlayboth = true ∨ s.flagForce = false ∧ some s.game.getSide = s.myside)

omit [Build] in
theorem turn_eq_engine_iff : s.turn = .engine ↔ s.EngineTurn := by
  unfold turn EngineTurn
  by_cases hr : s.game.result = .open
  · cases hb : s.flagPlayboth with
    | true => simp [hr]
    | false =>
      by_cases hm : s.flagForce = false ∧ some s.game.getSide = s.myside
      · simp [hr, hm.1, hm.2]
      · have hc : (!s.flagForce && decide (some s.game.getSide = s.myside)) = false := by
          simpa using hm
        simp only [hr, hc, hm, ne_eq, not_true_eq_false, if_false, Bool.false_eq_true, or_self,
          and_false, iff_false]
        split
        · exact nofun
        · split <;> exact nofun
  · simp [hr]

/-- A command has not changed what decides whose turn it is, nor the search. -/
structure Unmoved (s s' : Shell) : Prop where
  game : Kept s.game s'.game
  flagForce : s'.flagForce = s.flagForce
  flagPlayboth : s'.flagPlayboth = s.flagPlayboth
  myside : s'.myside = s.myside
  search : s'.search = s.search

omit [Build] in
theorem Unmoved.refl (s : Shell) : Unmoved s s := ⟨.refl _, rfl, rfl, rfl, rfl⟩

omit [Build] in
theorem Unmoved.engineTurn_iff (h : Unmoved s s') : s'.EngineTurn ↔ s.EngineTurn := by
  unfold EngineTurn Game.getSide
  rw [h.game.result, h.game.currentBoard, h.flagForce, h.flagPlayboth, h.myside]

/-- **A command that does not stop the search** leaves it its game. -/
theorem unmoved_exec (h : s.stops cmd = false) : Unmoved s (s.exec cmd) := by
  cases cmd with
  | quit | hard => exact ⟨.refl _, rfl, rfl, rfl, rfl⟩
  | other => exact .refl s
  | setClocks clock now => exact ⟨kept_setClocks _ _ _ _, rfl, rfl, rfl, rfl⟩
  | time csecs =>
    show Unmoved s (match s.myside with | none => s | some c => _)
    split
    · exact .refl s
    · exact ⟨⟨rfl, rfl, rfl, rfl⟩, rfl, rfl, rfl, rfl⟩
  | otim csecs =>
    show Unmoved s (match s.myside with | none => s | some c => _)
    split
    · exact .refl s
    · exact ⟨⟨rfl, rfl, rfl, rfl⟩, rfl, rfl, rfl, rfl⟩
  | usermove mov now =>
    cases mov with
    | none => exact .refl s
    | some mov =>
      have hexec : s.exec (.usermove (some mov) now) = s :=
        if_neg (by rw [show s.accepts (some mov) = false from h]; exact Bool.false_ne_true)
      rw [hexec]
      exact .refl s
  | cores n =>
    have hn : coresOf n = s.parallel := by simpa [stops] using h
    have hexec : s.exec (.cores n) = s := if_pos hn
    rw [hexec]
    exact .refl s
  | _ => cases h

/-- No command starts a search; `cores` makes a new one. -/
theorem search_exec (s : Shell) (cmd : Command) :
    (s.exec cmd).search = s.search ∨ (s.exec cmd).search = .fresh := by
  cases cmd with
  | cores n =>
    by_cases hn : coresOf n = s.parallel
    · rw [show s.exec (.cores n) = s from if_pos hn]
      exact .inl rfl
    · rw [show s.exec (.cores n) = { s with parallel := coresOf n, search := .fresh } from if_neg hn]
      exact .inr rfl
  | _ =>
    left
    simp only [exec, force]
    repeat' split
    all_goals rfl

end Shell

namespace Session

variable [Build] {s t : Session} {a : Agent} {as : List Agent} {sh : Shell} {cmd : Option Command}

/-- The shell has no thread there. -/
def Alone : ShellPos → Prop
  | .engine | .thinking _ | .solving | .left => True
  | _ => False

/-- The shell searches itself there. -/
def Thinks : ShellPos → Prop
  | .thinking _ => True
  | _ => False

/-- The shell decides or reads there. -/
def Listens : ShellPos → Prop
  | .top | .input => True
  | _ => False

/-- The shell waits for the thread there. -/
def Waits : ShellPos → Prop
  | .waiting _ => True
  | _ => False

/-- The thread, if there is one, searches a position in which the engine is not to move. -/
structure Orderly (s : Session) : Prop where
  alone : Alone s.pos → s.shell.search.thread = none
  busy : s.shell.search.busy = true ↔ s.shell.search.thread = some .searching ∨ Thinks s.pos
  quiet : Listens s.pos → s.shell.search.thread ≠ none → ¬ s.shell.EngineTurn
  asked : Waits s.pos → s.shell.search.thread ≠ none ∧ s.shell.search.stop = true

omit [Build] in
theorem alone_of_thinks {p : ShellPos} (h : Thinks p) : Alone p := by
  cases p with
  | thinking solve => trivial
  | _ => exact h.elim

omit [Build] in
/-- A search that is not on. -/
theorem Orderly.free (h : Orderly s) (hthread : s.shell.search.thread ≠ some .searching)
    (hpos : ¬ Thinks s.pos) : s.shell.search.busy = false := by
  rw [← Bool.not_eq_true, h.busy]
  exact fun he => he.elim hthread hpos

omit [Build] in
/-- No search is on where there is no thread and the shell does not search itself. -/
theorem orderly_idle {sh : Shell} {p : ShellPos} (hthread : sh.search.thread = none)
    (hbusy : sh.search.busy = false) (hp : ¬ Thinks p) (hw : ¬ Waits p) : Orderly ⟨sh, p⟩ := by
  refine ⟨fun _ => hthread, iff_of_false ?_ ?_, fun _ h => absurd hthread h, fun h => absurd h hw⟩
  · rw [hbusy]
    exact Bool.false_ne_true
  · rintro (h | h)
    · cases hthread.symm.trans h
    · exact hp h

omit [Build] in
theorem orderly_start (sh : Shell) : Orderly (start sh) := orderly_idle rfl rfl id id

theorem orderly_afterStop (hthread : sh.search.thread = none) (hbusy : sh.search.busy = false)
    (cmd : Option Command) : Orderly (afterStop sh cmd) := by
  have hexec : ∀ cmd, Orderly ⟨sh.exec cmd, .top⟩ := by
    intro cmd
    rcases sh.search_exec cmd with he | he
    · exact orderly_idle (by rw [he]; exact hthread) (by rw [he]; exact hbusy) id id
    · exact orderly_idle (by rw [he]; rfl) (by rw [he]; rfl) id id
  cases cmd with
  | none => exact orderly_idle hthread hbusy id id
  | some cmd =>
    cases cmd with
    | solve => exact orderly_idle hthread hbusy id id
    | _ => exact hexec _

omit [Build] in
/-- Where the main loop does not choose the engine, it is not the engine's turn. -/
theorem not_engineTurn (h : sh.turn ≠ .engine) : ¬ sh.EngineTurn :=
  fun he => h (Shell.turn_eq_engine_iff.mpr he)

/-- **Every step keeps the order**, whoever takes it. -/
theorem Step.orderly (h : Step s a t) (hs : Orderly s) : Orderly t := by
  cases h with
  | leave _ => exact ⟨False.elim, hs.busy, False.elim, False.elim⟩
  | @engine sh now hq ht =>
    have hthread : sh.search.thread = none := by
      by_contra h
      exact hs.quiet trivial h (Shell.turn_eq_engine_iff.mp ht)
    exact ⟨fun _ => hthread, hs.busy, False.elim, False.elim⟩
  | @background sh hq ht =>
    have hturn : ¬ sh.EngineTurn := not_engineTurn (by rw [ht]; exact nofun)
    refine ⟨False.elim, ?_, fun _ _ => hturn, False.elim⟩
    show sh.search.startThread.busy = true ↔ sh.search.startThread.thread = some .searching ∨ False
    unfold SearchControl.startThread
    cases hth : sh.search.thread with
    | none =>
      have hb : sh.search.busy = false := hs.free (by rw [hth]; exact nofun) id
      simp [hb]
    | some w =>
      have hb := hs.busy
      rwa [hth] at hb ⊢
  | @prompt sh hq ht =>
    have hturn : ¬ sh.EngineTurn := not_engineTurn (by rw [ht]; exact nofun)
    exact ⟨False.elim, hs.busy, fun _ _ => hturn, False.elim⟩
  | @command sh cmd hc =>
    have hu := Shell.unmoved_exec hc
    refine ⟨False.elim, ?_, fun _ h he => ?_, False.elim⟩
    · show (sh.exec cmd).search.busy = true ↔ (sh.exec cmd).search.thread = _ ∨ False
      rw [hu.search]
      exact hs.busy
    · have hthread : sh.search.thread ≠ none := by rwa [← hu.search]
      exact hs.quiet trivial hthread (hu.engineTurn_iff.mp he)
  | stopping cmd hc => exact ⟨False.elim, hs.busy, False.elim, False.elim⟩
  | fail => exact ⟨False.elim, hs.busy, False.elim, False.elim⟩
  | @played sh mov flags now hmov =>
    have hthread : sh.search.thread = none := hs.alone trivial
    exact orderly_idle hthread (hs.free (by rw [hthread]; exact nofun) id) id id
  | start => exact ⟨hs.alone, iff_of_true rfl (.inr trivial), False.elim, False.elim⟩
  | @found sh mov flags now hmov => exact orderly_idle (hs.alone trivial) rfl id id
  | record => exact ⟨hs.alone, iff_of_true rfl (.inr trivial), False.elim, False.elim⟩
  | @solved sh => exact orderly_idle (hs.alone trivial) rfl id id
  | @solveDone sh =>
    have hthread : sh.search.thread = none := hs.alone trivial
    exact orderly_idle hthread (hs.free (by rw [hthread]; exact nofun) id) id id
  | @noThread sh cmd ht => exact orderly_afterStop ht (hs.free (by rw [ht]; exact nofun) id) cmd
  | @wait sh cmd ht =>
    refine ⟨False.elim, hs.busy, False.elim, fun _ => ⟨fun h => ?_, rfl⟩⟩
    rw [show sh.search.thread = none from h] at ht
    cases ht
  | @join sh cmd ht =>
    refine orderly_afterStop rfl ?_ cmd
    exact hs.free (by rw [ht]; exact nofun) id
  | @threadMain sh p ht =>
    have hthread : sh.search.thread ≠ none := by rw [ht]; exact nofun
    exact ⟨fun h => absurd (hs.alone h) hthread, iff_of_true rfl (.inl rfl),
      fun hp _ => hs.quiet hp hthread, fun hp => ⟨nofun, (hs.asked hp).2⟩⟩
  | @threadReturn sh p ht =>
    have hthread : sh.search.thread ≠ none := by rw [ht]; exact nofun
    refine ⟨fun h => absurd (hs.alone h) hthread, iff_of_false nofun ?_,
      fun hp _ => hs.quiet hp hthread, fun hp => ⟨nofun, (hs.asked hp).2⟩⟩
    rintro (h | h)
    · cases h
    · exact hthread (hs.alone (alone_of_thinks h))
  | timeout hb => exact ⟨hs.alone, hs.busy, hs.quiet, fun hp => ⟨(hs.asked hp).1, rfl⟩⟩
  | sigint =>
    refine ⟨hs.alone, hs.busy, fun hp h he => hs.quiet hp h ⟨he.1, ?_⟩,
      fun hp => ⟨(hs.asked hp).1, rfl⟩⟩
    rcases he.2 with hb | hm
    · cases hb
    · exact .inr hm

theorem orderly_of_runs (h : Runs Step (start sh) as s) : Orderly s :=
  h.invariant (orderly_start sh) fun _ _ _ hs hstep => hstep.orderly hs

/-- In analysis mode. -/
def analysing (g : Game) : Shell where
  quit := false
  stop := false
  flagForce := true
  flagPonder := false
  flagAnalyze := true
  flagPlayboth := false
  myside := none
  parallel := 0
  game := g
  search := .fresh

/-- The thread is started, and begins to search. -/
def analysis (g : Game) : Session :=
  ⟨{ analysing g with search := ⟨false, true, some .searching⟩ }, .input⟩

theorem runs_analysis {g : Game} (hg : g.result = .open) :
    Runs Step (start (analysing g)) [.shell, .worker] (analysis g) := by
  have hturn : (start (analysing g)).shell.turn = .search := by
    simp [Shell.turn, start, analysing, hg]
  exact .cons (.background rfl hturn) (.cons (.threadMain rfl) .start)

/-- **Searches are apart**: no assertion of `start` and of `thread_main` fails, that there is no
thread and that `game` is not set, and a command that has stopped the search finds none on. -/
theorem searches_apart (h : Runs Step (start sh) as s) :
    (s.pos = .engine ∨ s.pos = .solving →
      s.shell.search.thread = none ∧ s.shell.search.busy = false) ∧
    (s.shell.search.thread = some .created → s.shell.search.busy = false) ∧
    ∀ cmd, s.pos = .stopping cmd ∧ s.shell.search.thread = none ∨
      s.pos = .waiting cmd ∧ s.shell.search.thread = some .finished → s.shell.search.busy = false := by
  have ho := orderly_of_runs h
  refine ⟨fun hpos => ?_, fun hthread => ho.free (by rw [hthread]; exact nofun) fun hp => ?_,
    fun cmd hcmd => ?_⟩
  · have hthread : s.shell.search.thread = none := by
      refine ho.alone ?_
      rcases hpos with hp | hp <;> rw [hp] <;> trivial
    refine ⟨hthread, ho.free (by rw [hthread]; exact nofun) ?_⟩
    rcases hpos with hp | hp <;> rw [hp] <;> exact id
  · cases hthread.symm.trans (ho.alone (alone_of_thinks hp))
  · rcases hcmd with ⟨hp, hthread⟩ | ⟨hp, hthread⟩
    · exact ho.free (by rw [hthread]; exact nofun) (by rw [hp]; exact id)
    · exact ho.free (by rw [hthread]; exact nofun) (by rw [hp]; exact id)

omit [Build] in
/-- While an analysis is on, the next search has not begun. -/
theorem searches_apart_analysis :
    let _ := sampleBuild
    ∃ as s, Runs Step (start (analysing (.construct .clear .untimed .untimed))) as s ∧
      s.pos = .solving ∧ s.shell.search.thread = none ∧ s.shell.search.busy = false := by
  intro _
  have hrun := ((((runs_analysis (g := .construct .clear .untimed .untimed) rfl).next
    (.stopping .solve rfl)).next (.wait rfl)).next (.threadReturn rfl)).next (.join rfl)
  exact ⟨_, _, hrun, rfl, (searches_apart hrun).1 (.inr rfl)⟩

/-! ## The game that a thread finds -/

/-- There is a thread. -/
def HasThread (s : Session) : Prop := s.shell.search.thread ≠ none

theorem not_hasThread_afterStop (h : sh.search.thread = none) : ¬ HasThread (afterStop sh cmd) := by
  have hexec : ∀ cmd, (sh.exec cmd).search.thread = none := by
    intro cmd
    rcases sh.search_exec cmd with he | he
    · rw [he]
      exact h
    · rw [he]
      rfl
  cases cmd with
  | none => exact fun ht => ht h
  | some cmd =>
    cases cmd with
    | solve => exact fun ht => ht h
    | _ => exact fun ht => ht (hexec _)

/-- **While there is a thread** no step changes what it reads of the game. -/
theorem Step.kept (h : Step s a t) (hs : Orderly s) (hthread : HasThread s) (ht : HasThread t) :
    Kept s.shell.game t.shell.game := by
  cases h with
  | engine now hq hturn =>
    exact absurd (Shell.turn_eq_engine_iff.mp hturn) (hs.quiet trivial hthread)
  | command cmd hc => exact (Shell.unmoved_exec hc).game
  | played mov flags now hmov => exact absurd (hs.alone trivial) hthread
  | found mov flags now hmov => exact absurd (hs.alone trivial) hthread
  | noThread hnone => exact absurd hnone hthread
  | join hfin => exact absurd ht (not_hasThread_afterStop rfl)
  | _ => exact .refl _

/-- **A thread finds the game as it was when it was started**, whatever is typed meanwhile: a run
all through which there is a thread changes nothing that a search reads. -/
theorem game_kept (h : Runs Step (start sh) as s) {as' : List Agent}
    (hrun : Runs (Under (fun s _ => HasThread s) Step) s as' t) (ht : HasThread t) :
    Kept s.shell.game t.shell.game := by
  have hboth : Orderly t ∧ (HasThread t → Kept s.shell.game t.shell.game) := by
    refine hrun.invariant (P := fun t => Orderly t ∧ (HasThread t → Kept s.shell.game t.shell.game))
      ⟨orderly_of_runs h, fun _ => .refl _⟩ fun t a t' hk hstep => ?_
    exact ⟨hstep.2.orderly hk.1, fun ht' =>
      (hk.2 hstep.1).trans (hstep.2.kept hk.1 hstep.1 ht')⟩
  exact hboth.2 ht

omit [Build] in
/-- The clocks are set anew during an analysis. -/
theorem game_kept_analysis :
    let _ := sampleBuild
    Kept (.construct .clear .untimed .untimed)
      ((Game.construct .clear .untimed .untimed).setClocks .untimed .untimed 0) := by
  intro _
  have hrun := runs_analysis (g := .construct .clear .untimed .untimed) rfl
  exact game_kept hrun (.cons ⟨nofun, .command (.setClocks .untimed 0) rfl⟩ .start) nofun

/-! ## Stopping -/

/-- The thread and the shell can go on to where there is no thread. -/
def Returns (s : Session) : Prop :=
  ∃ as t, Runs Step s as t ∧ (∀ a ∈ as, a = .worker ∨ a = .shell) ∧ ¬ HasThread t

theorem Returns.of_worker (h : Step s .worker t) (ht : Returns t) : Returns s := by
  obtain ⟨as, u, hrun, has, hu⟩ := ht
  exact ⟨_, u, .cons h hrun, List.forall_mem_cons.mpr ⟨.inl rfl, has⟩, hu⟩

theorem returns_of_finished (h : sh.search.thread = some .finished) :
    Returns ⟨sh, .waiting cmd⟩ :=
  ⟨_, _, .cons (.join h) .start, by simp, not_hasThread_afterStop rfl⟩

theorem returns_of_searching (h : sh.search.thread = some .searching) :
    Returns ⟨sh, .waiting cmd⟩ := .of_worker (.threadReturn h) (returns_of_finished rfl)

theorem returns_of_created (h : sh.search.thread = some .created) : Returns ⟨sh, .waiting cmd⟩ :=
  .of_worker (.threadMain h) (returns_of_searching rfl)

/-- **A request to stop is not lost**: while the shell waits for the thread the request stands,
and the thread's own steps, once it obeys, let the shell go on without a thread. -/
theorem stop_returns (h : Runs Step (start sh) as s) (hw : s.pos = .waiting cmd) :
    s.shell.search.stop = true ∧
      ∃ as' t, Runs Step s as' t ∧ (∀ a ∈ as', a = .worker ∨ a = .shell) ∧ ¬ HasThread t := by
  have ho := orderly_of_runs h
  obtain ⟨hthread, hstop⟩ := ho.asked (by rw [hw]; trivial)
  refine ⟨hstop, ?_⟩
  obtain ⟨sh, p⟩ := s
  obtain rfl : p = .waiting cmd := hw
  cases hth : sh.search.thread with
  | none => exact absurd hth hthread
  | some w =>
    cases w with
    | created => exact returns_of_created hth
    | searching => exact returns_of_searching hth
    | finished => exact returns_of_finished hth

omit [Build] in
/-- The analysis is stopped. -/
theorem stop_returns_analysis :
    let _ := sampleBuild
    ∃ as s t, Runs Step (start (analysing (.construct .clear .untimed .untimed))) as s ∧
      s.pos = .waiting (some .force) ∧ s.shell.search.stop = true ∧
      (∃ as', Runs Step s as' t) ∧ ¬ HasThread t := by
  intro _
  have hrun := ((runs_analysis (g := .construct .clear .untimed .untimed) rfl).next
    (.stopping .force rfl)).next (.wait rfl)
  obtain ⟨hstop, as', t, hrun', -, ht⟩ := stop_returns hrun rfl
  exact ⟨_, _, t, hrun, rfl, hstop, ⟨as', hrun'⟩, ht⟩

/-- Leaving the main loop by `quit` leaves no thread behind. -/
theorem not_hasThread_of_left (h : Runs Step (start sh) as s) (hl : s.pos = .left) :
    ¬ HasThread s := by
  have halone := (orderly_of_runs h).alone (by rw [hl]; trivial)
  exact fun ht => ht halone

/-- A line of a script that is no command makes the shell leave with the thread running. -/
theorem left_with_thread {g : Game} (hg : g.result = .open) :
    ∃ s as, Runs Step (start (analysing g)) as s ∧ s.pos = .failed ∧ HasThread s :=
  ⟨_, _, (runs_analysis hg).next .fail, rfl, nofun⟩

end Session

end HoiChess
