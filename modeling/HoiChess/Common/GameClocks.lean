import HoiChess.Common.Game
import HoiChess.Common.TimeControl

/-!
# The clocks of a game

A game copies its clocks between four places.  Only the clock of the side to move ever runs, and
only among the current ones: `TidyClocks` is kept by every public operation, and it is all that the
assertions about clocks ask for.
-/

namespace HoiChess

open Chess Run

namespace Game

variable (g : Game)

/-- `turn_back_clock()` -/
def turnBackClock (now : Realtime) : Game :=
  { g with currentClock := g.currentClock.set g.getSide ((g.currentClock.get g.getSide).turnBack now) }

/-- `set_remaining_time(side, csecs)`, where `from_cs` makes milliseconds of it. -/
def setRemainingTime (side : Color) (csecs : BitVec 32) : Game :=
  { g with currentClock :=
      g.currentClock.set side ((g.currentClock.get side).setRemainingTime (csecs.toNat * 10)) }

end Game

/-- A call of one of the public operations, those on the clocks included. -/
inductive ClockOp where
  | game (op : GameOp)
  | turnBackClock (now : Realtime)
  | setRemainingTime (side : Color) (csecs : BitVec 32)

/-- `set_clocks` is called with stopped clocks. -/
def ClockOp.Stopped : ClockOp → Prop
  | .game (.setClocks wclock bclock _) => wclock.running = false ∧ bclock.running = false
  | _ => True

namespace Game

/-- Both clocks are stopped. -/
def AllStopped (clocks : PerColor Clock) : Prop := ∀ c, (clocks.get c).running = false

/-- No clock runs but the current one of the side to move. -/
structure TidyClocks (g : Game) : Prop where
  waiting : (g.currentClock.get g.getSide.xside).running = false
  old : AllStopped g.oldClock
  initial : AllStopped g.initialClock
  entries : ∀ e ∈ g.entries, AllStopped e.clock
  undone : ∀ e ∈ g.undoneEntries, AllStopped e.clock

section Steps

variable [Build]

def clockStep (g : Game) : ClockOp → Game
  | .game op => g.step op
  | .turnBackClock now => g.turnBackClock now
  | .setRemainingTime side csecs => g.setRemainingTime side csecs

/-- The assertions of `make_move` and `set_clocks` about clocks. -/
def ClockAsserts (g : Game) : ClockOp → Prop
  | .game (.makeMove _ _ now) =>
    AllStopped (g.stopClock (now 0)).currentClock ∧ AllStopped (g.stopClock (now 0)).oldClock
  | .game (.setClocks wclock bclock _) => wclock.running = false ∧ bclock.running = false
  | _ => True

variable {g : Game}

omit [Build] in
theorem stop_running (c : Clock) (now : Realtime) : (c.stop now).running = false := by
  unfold Clock.stop
  cases h : c.running with
  | false => simpa using h
  | true =>
    simp only [Bool.not_true, Bool.false_eq_true, if_false]
    unfold Clock.updateRemaining
    split
    · rfl
    · rfl
    · simp only
      split <;> rfl
    · rfl
    · rfl

omit [Build] in
/-- After the clock of the side to move has been stopped, no current one runs. -/
theorem TidyClocks.stopClock (h : g.TidyClocks) (now : Realtime) :
    AllStopped (g.stopClock now).currentClock := by
  intro c
  have hc : c = g.getSide ∨ c = g.getSide.xside := by
    cases c <;> cases g.getSide <;> decide
  show ((g.currentClock.set g.getSide _).get c).running = false
  rcases hc with rfl | rfl
  · rw [PerColor.get_set_self]
    exact stop_running _ _
  · rw [PerColor.get_set, if_neg (ne_xside g.getSide)]
    exact h.waiting

omit [Build] in
theorem allStopped_stopOldClocks (nw nb : Realtime) : AllStopped (g.stopOldClocks nw nb).oldClock := by
  intro c
  cases c <;> exact stop_running _ _

omit [Build] in
/-- Starting the clock of the side to move. -/
theorem TidyClocks.startClock (h : g.TidyClocks) (now : Realtime) : (g.startClock now).TidyClocks := by
  refine ⟨?_, h.old, h.initial, h.entries, h.undone⟩
  show ((g.currentClock.set g.getSide _).get g.getSide.xside).running = false
  rw [PerColor.get_set, if_neg (ne_xside g.getSide)]
  exact h.waiting

omit [Build] in
/-- The clocks do not depend on whether the game is running, nor on its result. -/
theorem TidyClocks.congr {g' : Game} (h : g.TidyClocks) (hboard : g'.currentBoard = g.currentBoard)
    (hcurrent : g'.currentClock = g.currentClock) (hold : g'.oldClock = g.oldClock)
    (hinitial : g'.initialClock = g.initialClock) (hentries : ∀ e ∈ g'.entries, e ∈ g.entries)
    (hundone : ∀ e ∈ g'.undoneEntries, e ∈ g.undoneEntries) : g'.TidyClocks := by
  refine ⟨?_, hold ▸ h.old, hinitial ▸ h.initial, fun e he => h.entries e (hentries e he),
    fun e he => h.undone e (hundone e he)⟩
  show (g'.currentClock.get g'.currentBoard.side.xside).running = false
  rw [hcurrent, hboard]
  exact h.waiting

theorem checkResult_eq (g : Game) : ∃ result str comment, g.checkResult = g.setResult result str comment := by
  unfold checkResult
  simp only
  split
  · split <;> exact ⟨_, _, _, rfl⟩
  split
  · exact ⟨_, _, _, rfl⟩
  split
  · exact ⟨_, _, _, rfl⟩
  split
  · exact ⟨_, _, _, rfl⟩
  split <;> exact ⟨_, _, _, rfl⟩

attribute [local irreducible] checkResult

theorem TidyClocks.checkResult (h : g.TidyClocks) : g.checkResult.TidyClocks := by
  obtain ⟨result, str, comment, he⟩ := checkResult_eq g
  rw [he]
  exact h.congr rfl rfl rfl rfl (fun _ he => he) fun _ he => he

theorem TidyClocks.continueOrEnd (h : g.TidyClocks) (now : Realtime) :
    (g.continueOrEnd now).TidyClocks := by
  unfold Game.continueOrEnd
  simp only
  split
  · exact (h.checkResult.startClock now).congr rfl rfl rfl rfl (fun _ he => he) fun _ he => he
  · exact h.checkResult.congr rfl rfl rfl rfl (fun _ he => he) fun _ he => he

attribute [local irreducible] continueOrEnd

omit [Build] in
/-- New current clocks, all of them stopped. -/
theorem tidyClocks_of_stopped (hcurrent : AllStopped g.currentClock) (hold : AllStopped g.oldClock)
    (hinitial : AllStopped g.initialClock) (hentries : ∀ e ∈ g.entries, AllStopped e.clock)
    (hundone : ∀ e ∈ g.undoneEntries, AllStopped e.clock) : g.TidyClocks :=
  ⟨hcurrent _, hold, hinitial, hentries, hundone⟩

theorem TidyClocks.makeMove (h : g.TidyClocks) (mov : Move) (flags : BitVec 32)
    (now : Nat → Realtime) : (g.makeMove mov flags now).TidyClocks := by
  have hstopped := h.stopClock (now 0)
  have hbefore : TidyClocks { g.stopClock (now 0) with
      entries := g.entries ++ [⟨g.currentBoard, mov, g.oldClock, flags⟩]
      currentBoard := g.currentBoard.makeMove mov
      oldClock := (g.stopClock (now 0)).currentClock } := by
    refine tidyClocks_of_stopped hstopped hstopped h.initial (fun e he => ?_) h.undone
    rcases List.mem_append.mp he with he | he
    · exact h.entries e he
    · obtain rfl := List.mem_singleton.mp he
      exact h.old
  exact (hbefore.continueOrEnd (now 1)).congr rfl rfl rfl rfl (fun _ he => he)
    fun e he => absurd he List.not_mem_nil

omit [Build] in
theorem TidyClocks.undoMove (h : g.TidyClocks) (now : Nat → Realtime) :
    (g.undoMove now).1.TidyClocks := by
  unfold Game.undoMove
  cases hlast : g.entries.getLast? with
  | none => exact h.congr rfl rfl rfl rfl (fun _ he => he) fun _ he => he
  | some last =>
    have hmem := List.mem_of_getLast? hlast
    have hclock := h.entries last hmem
    have hbefore : TidyClocks { g with
        entries := g.entries.dropLast
        undoneEntries := ⟨g.currentBoard, last.move, (g.stopOldClocks (now 0) (now 1)).oldClock,
          last.flags⟩ :: g.undoneEntries
        currentBoard := last.board
        oldClock := last.clock
        currentClock := last.clock } := by
      refine tidyClocks_of_stopped hclock hclock h.initial
        (fun e he => h.entries e (List.dropLast_subset _ he)) fun e he => ?_
      rcases List.mem_cons.mp he with rfl | he
      · exact allStopped_stopOldClocks (now 0) (now 1)
      · exact h.undone e he
    exact (hbefore.startClock (now 2)).congr rfl rfl rfl rfl (fun _ he => he) fun _ he => he

theorem TidyClocks.redoMove (h : g.TidyClocks) (now : Nat → Realtime) :
    (g.redoMove now).1.TidyClocks := by
  unfold Game.redoMove
  cases hundone : g.undoneEntries with
  | nil => exact h
  | cons undone rest =>
    have hall := h.undone
    rw [hundone] at hall
    have hclock := hall undone List.mem_cons_self
    have hbefore : TidyClocks { g.stopClock (now 0) with
        undoneEntries := rest
        entries := g.entries ++ [⟨g.currentBoard, undone.move,
          (g.stopOldClocks (now 1) (now 2)).oldClock, undone.flags⟩]
        currentBoard := undone.board
        currentClock := undone.clock
        oldClock := undone.clock } := by
      refine tidyClocks_of_stopped hclock hclock h.initial (fun e he => ?_)
        fun e he => hall e (List.mem_cons_of_mem undone he)
      rcases List.mem_append.mp he with he | he
      · exact h.entries e he
      · obtain rfl := List.mem_singleton.mp he
        exact allStopped_stopOldClocks (now 1) (now 2)
    exact hbefore.continueOrEnd (now 3)

theorem TidyClocks.setBoard (h : g.TidyClocks) (board : Board) : (g.setBoard board).TidyClocks := by
  have hbefore : TidyClocks { g with
      initialBoard := board, currentBoard := board, oldClock := g.initialClock
      currentClock := g.initialClock, entries := [], running := false } :=
    tidyClocks_of_stopped h.initial h.initial h.initial
      (fun e he => absurd he List.not_mem_nil) h.undone
  exact hbefore.checkResult

omit [Build] in
theorem TidyClocks.setClocks (h : g.TidyClocks) {wclock bclock : Clock}
    (hw : wclock.running = false) (hb : bclock.running = false) (now : Realtime) :
    (g.setClocks wclock bclock now).TidyClocks := by
  have hboth : AllStopped ⟨wclock, bclock⟩ := by
    intro c
    cases c
    · exact hw
    · exact hb
  have hbefore : TidyClocks { g with
      initialClock := ⟨wclock, bclock⟩, oldClock := ⟨wclock, bclock⟩
      currentClock := ⟨wclock, bclock⟩ } :=
    tidyClocks_of_stopped hboth hboth hboth h.entries h.undone
  unfold Game.setClocks
  simp only
  split
  · exact hbefore.startClock now
  · exact hbefore

omit [Build] in
/-- Another time for a clock does not make it run. -/
theorem TidyClocks.setCurrent (h : g.TidyClocks) (c : Color) {clock : Clock}
    (hclock : clock.running = (g.currentClock.get c).running) :
    TidyClocks { g with currentClock := g.currentClock.set c clock } := by
  refine ⟨?_, h.old, h.initial, h.entries, h.undone⟩
  show ((g.currentClock.set c clock).get g.getSide.xside).running = false
  rw [PerColor.get_set]
  split
  · rename_i he
    rw [hclock, he]
    exact h.waiting
  · exact h.waiting

/-- **Every operation keeps the clocks tidy**, and asserts nothing else. -/
theorem TidyClocks.clockStep (h : g.TidyClocks) {op : ClockOp} (hop : op.Stopped) :
    (g.clockStep op).TidyClocks ∧ g.ClockAsserts op := by
  cases op with
  | game op =>
    cases op with
    | makeMove mov flags now => exact ⟨h.makeMove mov flags now, h.stopClock (now 0), h.old⟩
    | undoMove now => exact ⟨h.undoMove now, trivial⟩
    | redoMove now => exact ⟨h.redoMove now, trivial⟩
    | setBoard board => exact ⟨h.setBoard board, trivial⟩
    | setBoardFen fen =>
      refine ⟨?_, trivial⟩
      show (g.setBoardFen fen).1.TidyClocks
      unfold Game.setBoardFen
      cases Board.parseFen fen with
      | accepted board => exact h.setBoard board
      | rejected => exact h.congr rfl rfl rfl rfl (fun e he => absurd he List.not_mem_nil) fun _ he => he
      | undefined => exact h.congr rfl rfl rfl rfl (fun e he => absurd he List.not_mem_nil) fun _ he => he
    | setClocks wclock bclock now => exact ⟨h.setClocks hop.1 hop.2 now, hop⟩
    | start now =>
      exact ⟨(h.startClock now).congr rfl rfl rfl rfl (fun _ he => he) fun _ he => he, trivial⟩
  | turnBackClock now =>
    refine ⟨h.setCurrent g.getSide ?_, trivial⟩
    unfold Clock.turnBack
    simp only
    split <;> rfl
  | setRemainingTime side csecs => exact ⟨h.setCurrent side rfl, trivial⟩

/-- **Only the mover's clock runs**, in every game, and no assertion about clocks can fail. -/
theorem clocks_tidy (board : Board) {wclock bclock : Clock} (hw : wclock.running = false)
    (hb : bclock.running = false) {ops : List ClockOp} (hops : ∀ op ∈ ops, op.Stopped) :
    Visits clockStep TidyClocks (construct board wclock bclock) ops ∧
      Along clockStep ClockAsserts (construct board wclock bclock) ops := by
  have hstart : (construct board wclock bclock).TidyClocks := by
    have hboth : AllStopped ⟨wclock, bclock⟩ := by
      intro c
      cases c
      · exact hw
      · exact hb
    exact tidyClocks_of_stopped hboth hboth hboth (fun e he => absurd he List.not_mem_nil)
      fun e he => absurd he List.not_mem_nil
  have hall : Along clockStep (fun _ op => op.Stopped) (construct board wclock bclock) ops := by
    clear hstart
    generalize construct board wclock bclock = g
    induction ops generalizing g with
    | nil => trivial
    | cons op ops ih =>
      exact ⟨hops op List.mem_cons_self, ih (fun o ho => hops o (List.mem_cons_of_mem op ho)) _⟩
  exact ⟨hall.visits hstart fun g op hg hop => (hg.clockStep hop).1,
    hall.of_invariant hstart fun g op hg hop => hg.clockStep hop⟩

end Steps

/-- A move of a timed game is made, taken back and made again. -/
theorem clocks_tidy_blitz : ∃ b, @Board.parseFen sampleBuild openingFen = .accepted b ∧
    let ops : List ClockOp := [.game (.start 0), .game (.makeMove kingsPawn 0 (fun _ => 1000)),
      .turnBackClock 2000, .game (.undoMove (fun _ => 3000)), .game (.redoMove (fun _ => 4000))]
    Visits (@clockStep sampleBuild) TidyClocks (construct b (.timed 0 300 0) (.timed 0 300 0)) ops ∧
      Along (@clockStep sampleBuild) ClockAsserts
        (construct b (.timed 0 300 0) (.timed 0 300 0)) ops := by
  let _ := sampleBuild
  obtain ⟨b, hb, _⟩ := kingsPawn_asserted
  refine ⟨b, hb, clocks_tidy b rfl rfl fun op hop => ?_⟩
  simp only [List.mem_cons, List.not_mem_nil, or_false] at hop
  rcases hop with rfl | rfl | rfl | rfl | rfl <;> trivial

end Game

end HoiChess
