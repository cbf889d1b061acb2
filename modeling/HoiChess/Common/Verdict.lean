import HoiChess.Common.Game

/-!
# What a game keeps, and what it lets go stale

Redoing what was just undone restores a game but for its clocks: boards, moves and flags by
`History.run_undo_redo`, the result because it is computed anew from them.  `undo_move` itself
declares the game open without computing anything, and a game without moves was never looked at.
So the stored result is exactly the one of the position as long as undoing leads from one undecided
position to another (`visits_settled_iff`).
-/

namespace HoiChess

open Chess Run

namespace Game

section Results

variable [Build] (g : Game)

/-- The three fields that tell the result. -/
def outcome : GameResult × String × String := (g.result, g.resultStr, g.resultComment)

/-- What `check_result` makes of the position. -/
def verdict : GameResult × String × String := g.checkResult.outcome

/-- The result is the one `check_result` would compute. -/
def Fresh : Prop := g.outcome = g.verdict

/-- No rule ends the game in this position. -/
def Undecided : Prop :=
  g.currentBoard.isMate = false ∧ g.currentBoard.isStalemate = false ∧
    g.currentBoard.movecnt50 ≠ 100 ∧ g.repetitions g.currentBoard < 2 ∧
    g.currentBoard.isMaterialDraw = false

variable {g} {g' : Game}

theorem verdict_eq (g : Game) : g.verdict =
    let board := g.currentBoard
    if board.isMate then
      if board.side = .white then (.blackmates, "0-1", "Black mates")
      else (.whitemates, "1-0", "White mates")
    else if board.isStalemate then (.stalemate, "1/2-1/2", "Stalemate")
    else if board.movecnt50 = 100 then (.rule50, "1/2-1/2", "50 move rule")
    else if g.repetitions board ≥ 2 then (.reps3, "1/2-1/2", "3 repetitions")
    else if board.isMaterialDraw then (.material, "1/2-1/2", "Insufficient material")
    else (.open, "*", "Open") := by
  unfold verdict checkResult
  simp only
  split_ifs <;> rfl

omit [Build] in
theorem repetitions_congr (he : g'.entries.map GameEntry.board = g.entries.map GameEntry.board)
    (b : Board) : g'.repetitions b = g.repetitions b := by
  have hcount := congrArg (List.countP fun board => board.sameAs b) he
  rw [List.countP_map, List.countP_map] at hcount
  exact hcount

/-- The verdict is about the current board and those of the entries. -/
theorem verdict_congr (hb : g'.currentBoard = g.currentBoard)
    (he : g'.entries.map GameEntry.board = g.entries.map GameEntry.board) :
    g'.verdict = g.verdict := by
  simp only [verdict_eq, hb, repetitions_congr he]

theorem fresh_congr (hb : g'.currentBoard = g.currentBoard)
    (he : g'.entries.map GameEntry.board = g.entries.map GameEntry.board)
    (ho : g'.outcome = g.outcome) : g'.Fresh ↔ g.Fresh := by
  simp only [Fresh, ho, verdict_congr hb he]

/-- The strings of the verdict tell whether the position is decided, as the result does. -/
theorem verdict_cases (g : Game) :
    (g.Undecided ∧ g.verdict = (.open, "*", "Open")) ∨
      (¬ g.Undecided ∧ g.verdict.1 ≠ .open ∧ g.verdict.1 ≠ .illegal ∧ g.verdict.2.1 ≠ "*") := by
  simp only [verdict_eq, Undecided]
  split_ifs with hmate hside hstale hcount hreps hmat
  · exact .inr ⟨fun h => absurd (hmate.symm.trans h.1) nofun, nofun, nofun, by simp⟩
  · exact .inr ⟨fun h => absurd (hmate.symm.trans h.1) nofun, nofun, nofun, by simp⟩
  · exact .inr ⟨fun h => absurd (hstale.symm.trans h.2.1) nofun, nofun, nofun, by simp⟩
  · exact .inr ⟨fun h => h.2.2.1 hcount, nofun, nofun, by simp⟩
  · exact .inr ⟨fun h => absurd h.2.2.2.1 (not_lt.mpr hreps), nofun, nofun, by simp⟩
  · exact .inr ⟨fun h => absurd (hmat.symm.trans h.2.2.2.2) nofun, nofun, nofun, by simp⟩
  · exact .inl ⟨⟨Bool.eq_false_of_not_eq_true hmate, Bool.eq_false_of_not_eq_true hstale, hcount,
      not_le.mp hreps, Bool.eq_false_of_not_eq_true hmat⟩, rfl⟩

theorem verdict_ne_illegal (g : Game) : g.verdict.1 ≠ .illegal := by
  rcases verdict_cases g with ⟨_, hv⟩ | ⟨_, _, hne, _⟩
  · rw [hv]
    exact GameResult.noConfusion
  · exact hne

theorem fresh_checkResult (g : Game) : g.checkResult.Fresh := by
  have hh := history_checkResult g
  have hb : g.checkResult.currentBoard = g.currentBoard := congrArg History.current hh
  have he : g.checkResult.entries.map GameEntry.board = g.entries.map GameEntry.board := by
    have hentries := congrArg (fun h => h.entries.map Prod.fst) hh
    simp only [history, List.map_map] at hentries
    exact hentries
  exact (verdict_congr hb he).symm

/-! ## The operations -/

theorem outcome_continueOrEnd (g : Game) (now : Realtime) :
    (g.continueOrEnd now).outcome = g.verdict := by
  unfold continueOrEnd
  simp only
  split <;> rfl

theorem fresh_continueOrEnd (g : Game) (now : Realtime) : (g.continueOrEnd now).Fresh := by
  refine (fresh_congr ?_ ?_ ?_).mpr (fresh_checkResult g)
  · unfold continueOrEnd
    simp only
    split <;> rfl
  · unfold continueOrEnd
    simp only
    split <;> rfl
  · exact outcome_continueOrEnd g now

theorem Fresh.clearUndone (h : g.Fresh) : ({ g with undoneEntries := [] } : Game).Fresh := by
  have hiff : ({ g with undoneEntries := [] } : Game).Fresh ↔ g.Fresh := fresh_congr rfl rfl rfl
  exact hiff.mpr h

theorem fresh_makeMove (g : Game) (mov : Move) (flags : BitVec 32) (now : Nat → Realtime) :
    (g.makeMove mov flags now).Fresh :=
  (fresh_continueOrEnd _ _).clearUndone

theorem fresh_redoMove {undone : GameEntry} {rest : List GameEntry}
    (hu : g.undoneEntries = undone :: rest) (now : Nat → Realtime) : (g.redoMove now).1.Fresh := by
  unfold redoMove
  rw [hu]
  exact fresh_continueOrEnd _ _

theorem fresh_setBoard (g : Game) (board : Board) : (g.setBoard board).Fresh := fresh_checkResult _

/-- The position before the last move. -/
def takenBack (g : Game) : Option Game :=
  g.entries.getLast?.map fun last =>
    { g with entries := g.entries.dropLast, currentBoard := last.board }

omit [Build] in
/-- The undone game is declared open; the two strings stay. -/
theorem outcome_undoMove (hne : g.entries ≠ []) (now : Nat → Realtime) :
    (g.undoMove now).1.outcome = (.open, g.outcome.2) := by
  obtain ⟨es, e, he⟩ := (List.eq_nil_or_concat' g.entries).resolve_left hne
  simp [undoMove, he, outcome, startClock, stopOldClocks]

/-- **Undoing a move keeps the result fresh exactly from one undecided position to another.** -/
theorem fresh_undoMove {back : Game} (hback : g.takenBack = some back) (hg : g.Fresh)
    (now : Nat → Realtime) : (g.undoMove now).1.Fresh ↔ g.Undecided ∧ back.Undecided := by
  obtain ⟨last, hlast, rfl⟩ := Option.map_eq_some_iff.mp hback
  set back : Game := { g with entries := g.entries.dropLast, currentBoard := last.board }
  have hfresh : (g.undoMove now).1.Fresh ↔ (GameResult.open, g.verdict.2) = back.verdict := by
    have hverdict : (g.undoMove now).1.verdict = back.verdict := by
      unfold undoMove
      rw [hlast]
      exact verdict_congr rfl rfl
    have hne : g.entries ≠ [] := by
      rintro hnil
      simp [hnil] at hlast
    rw [Fresh, hverdict, outcome_undoMove hne, hg]
  rw [hfresh]
  constructor
  · intro h
    rcases verdict_cases back with ⟨hb, hv⟩ | ⟨_, hne, _⟩
    · rw [hv] at h
      rcases verdict_cases g with ⟨hu, _⟩ | ⟨_, _, _, hne⟩
      · exact ⟨hu, hb⟩
      · exact absurd (congrArg (fun o => o.2.1) h) hne
    · exact absurd (congrArg Prod.fst h).symm hne
  · rintro ⟨hu, hb⟩
    rcases verdict_cases g with ⟨_, hv⟩ | ⟨hn, _⟩
    · rcases verdict_cases back with ⟨_, hv'⟩ | ⟨hn, _⟩
      · rw [hv, hv']
      · exact absurd hb hn
    · exact absurd hu hn

/-- Clocks and `running` have no part in the result. -/
theorem fresh_start (g : Game) (now : Realtime) : (g.start now).Fresh ↔ g.Fresh :=
  fresh_congr rfl rfl rfl

theorem fresh_setClocks (g : Game) (wclock bclock : Clock) (now : Realtime) :
    (g.setClocks wclock bclock now).Fresh ↔ g.Fresh := by
  unfold setClocks
  simp only
  split <;> exact fresh_congr rfl rfl rfl

/-- There is nothing to undo. -/
theorem fresh_undoMove_none (h : g.entries = []) (now : Nat → Realtime) :
    (g.undoMove now).1.Fresh ↔ g.Fresh := by
  have hundo : (g.undoMove now).1 = { g with running := false } := by simp [undoMove, h]
  rw [hundo]
  exact fresh_congr rfl rfl rfl

omit [Build] in
theorem takenBack_eq_none : g.takenBack = none ↔ g.entries = [] := by
  simp [takenBack]

/-! ## Whole games -/

/-- A game and whether the last call was that of `set_board` with a FEN that was rejected. -/
structure Noted where
  game : Game
  rejected : Bool

/-- The call fails to read its FEN. -/
def rejects : GameOp → Bool
  | .setBoardFen fen =>
    match Board.parseFen fen with
    | .accepted _ => false
    | .rejected | .undefined => true
  | _ => false

def Noted.step (s : Noted) (op : GameOp) : Noted := ⟨s.game.step op, rejects op⟩

/-- The result is not stale; right after a rejected FEN it may be `ILLEGAL`. -/
def Noted.Settled (s : Noted) : Prop :=
  s.game.Fresh ∨ (s.rejected = true ∧ s.game.result = .illegal)

/-- The call computes the result anew, or finds one that still holds: a move is undone from one
undecided position to another, and no FEN was just rejected where nothing is computed. -/
def Noted.Keeps (s : Noted) : GameOp → Prop
  | .makeMove _ _ _ | .setBoard _ | .setBoardFen _ => True
  | .undoMove _ =>
    match s.game.takenBack with
    | none => s.rejected = false
    | some back => s.game.Undecided ∧ back.Undecided
  | .redoMove _ => s.game.undoneEntries = [] → s.rejected = false
  | .setClocks _ _ _ | .start _ => s.rejected = false

section Whole

variable {s : Noted}

/-- What a rejected FEN leaves behind. -/
def Noted.Tidy (s : Noted) : Prop :=
  s.rejected = true → s.game.entries = [] ∧ s.game.result = .illegal

theorem Noted.Tidy.step (s : Noted) (op : GameOp) : (s.step op).Tidy := by
  intro hrej
  cases op with
  | setBoardFen fen =>
    simp only [Noted.step, rejects, Game.step, setBoardFen] at hrej ⊢
    cases hfen : Board.parseFen fen with
    | accepted board => simp [hfen] at hrej
    | rejected => exact ⟨rfl, rfl⟩
    | undefined => exact ⟨rfl, rfl⟩
  | _ => exact absurd hrej Bool.false_ne_true

/-- `ILLEGAL` is never the result of a position. -/
theorem Noted.Tidy.fresh_iff (ht : s.Tidy) (hs : s.Settled) :
    s.game.Fresh ↔ s.rejected = false := by
  rcases hs with hf | ⟨hrej, hill⟩
  · refine iff_of_true hf ?_
    by_contra hrej
    have hill := (ht (by simpa using hrej)).2
    exact verdict_ne_illegal s.game (by rw [← hf]; exact hill)
  · refine iff_of_false ?_ (by simp [hrej])
    intro hf
    exact verdict_ne_illegal s.game (by rw [← hf]; exact hill)

theorem settled_of_not_rejects {op : GameOp} (hop : rejects op = false) :
    (s.step op).Settled ↔ (s.game.step op).Fresh := by
  simp [Noted.Settled, Noted.step, hop]

/-- **Exactly when a call leaves the result settled.** -/
theorem settled_step_iff (ht : s.Tidy) (hs : s.Settled) (op : GameOp) :
    (s.step op).Settled ↔ s.Keeps op := by
  have hfresh := ht.fresh_iff hs
  cases op with
  | makeMove mov flags now =>
    rw [settled_of_not_rejects rfl]
    exact iff_of_true (fresh_makeMove _ _ _ _) trivial
  | undoMove now =>
    rw [settled_of_not_rejects rfl, Game.step, Noted.Keeps]
    cases hback : s.game.takenBack with
    | none =>
      rw [fresh_undoMove_none (takenBack_eq_none.mp hback)]
      exact hfresh
    | some back =>
      have hrej : s.rejected = false := by
        by_contra hrej
        have hnil := (ht (by simpa using hrej)).1
        rw [takenBack_eq_none.mpr hnil] at hback
        cases hback
      exact fresh_undoMove hback (hfresh.mpr hrej) now
  | redoMove now =>
    rw [settled_of_not_rejects rfl, Game.step, Noted.Keeps]
    cases hu : s.game.undoneEntries with
    | nil =>
      have hsame : (s.game.redoMove now).1 = s.game := by simp [redoMove, hu]
      rw [hsame, hfresh]
      simp
    | cons undone rest => exact iff_of_true (fresh_redoMove hu now) (by simp)
  | setBoard board =>
    rw [settled_of_not_rejects rfl]
    exact iff_of_true (fresh_setBoard _ _) trivial
  | setBoardFen fen =>
    refine iff_of_true ?_ trivial
    simp only [Noted.Settled, Noted.step, rejects, Game.step, setBoardFen]
    cases Board.parseFen fen with
    | accepted board => exact Or.inl (fresh_setBoard _ _)
    | rejected => exact Or.inr ⟨rfl, rfl⟩
    | undefined => exact Or.inr ⟨rfl, rfl⟩
  | setClocks wclock bclock now =>
    rw [settled_of_not_rejects rfl, Game.step, fresh_setClocks]
    exact hfresh
  | start now =>
    rw [settled_of_not_rejects rfl, Game.step, fresh_start]
    exact hfresh

/-- **From any settled game on**, the result stays settled exactly if every call keeps it so. -/
theorem visits_settled_iff (ht : s.Tidy) (hs : s.Settled) (ops : List GameOp) :
    Visits Noted.step Noted.Settled s ops ↔ Along Noted.step Noted.Keeps s ops := by
  have halong : ∀ (ops : List GameOp) (s : Noted), s.Tidy →
      Along Noted.step (fun s _ => s.Tidy) s ops := by
    intro ops
    induction ops with
    | nil => exact fun _ _ => trivial
    | cons op ops ih => exact fun s ht => ⟨ht, ih (s.step op) (.step s op)⟩
  exact visits_iff_along hs (halong ops s ht) fun s op hs ht => settled_step_iff ht hs op

end Whole

/-! ## Games from moves -/

/-- A call of `make_move`. -/
structure Made where
  move : Move
  flags : BitVec 32
  now : Nat → Realtime

def makeMoves (g : Game) (ms : List Made) : Game :=
  ms.foldl (fun g m => g.makeMove m.move m.flags m.now) g

/-- The game of a PGN with this opening and these moves; without moves it is that of the other
constructor. -/
def ofPgn (opening : Board) (wclock bclock : Clock) (moves : List (Move × (Nat → Realtime))) : Game :=
  (construct opening wclock bclock).makeMoves (moves.map fun m => ⟨m.1, 0, m.2⟩)

theorem not_fresh_construct (board : Board) (wclock bclock : Clock) :
    ¬ (construct board wclock bclock).Fresh := by
  intro h
  have hcomment : (construct board wclock bclock).verdict.2.2 = "" := by
    rw [← h]
    rfl
  simp only [verdict_eq] at hcomment
  split_ifs at hcomment <;> simp at hcomment

theorem fresh_makeMoves (g : Game) {ms : List Made} (hne : ms ≠ []) : (g.makeMoves ms).Fresh := by
  induction ms generalizing g with
  | nil => exact absurd rfl hne
  | cons m ms ih =>
    cases ms with
    | nil => exact fresh_makeMove g m.move m.flags m.now
    | cons m' ms => exact ih (g.makeMove m.move m.flags m.now) (List.cons_ne_nil m' ms)

theorem fresh_ofPgn_iff (opening : Board) (wclock bclock : Clock)
    (moves : List (Move × (Nat → Realtime))) :
    (ofPgn opening wclock bclock moves).Fresh ↔ moves ≠ [] := by
  cases moves with
  | nil => exact iff_of_false (not_fresh_construct opening wclock bclock) (by simp)
  | cons m moves => exact iff_of_true (fresh_makeMoves _ (by simp)) (by simp)

/-- **When the result of a game is never stale.** -/
theorem result_never_stale_iff (opening : Board) (wclock bclock : Clock)
    (moves : List (Move × (Nat → Realtime))) (ops : List GameOp) :
    Visits Noted.step Noted.Settled ⟨ofPgn opening wclock bclock moves, false⟩ ops ↔
      moves ≠ [] ∧ Along Noted.step Noted.Keeps ⟨ofPgn opening wclock bclock moves, false⟩ ops := by
  have hfirst : (⟨ofPgn opening wclock bclock moves, false⟩ : Noted).Settled ↔ moves ≠ [] := by
    rw [← fresh_ofPgn_iff opening wclock bclock moves]
    simp [Noted.Settled]
  constructor
  · intro h
    have hs : (⟨ofPgn opening wclock bclock moves, false⟩ : Noted).Settled := by
      cases ops with
      | nil => exact h
      | cons op ops => exact h.1
    exact ⟨hfirst.mp hs, (visits_settled_iff (fun hrej => Bool.noConfusion hrej) hs ops).mp h⟩
  · rintro ⟨hne, h⟩
    exact (visits_settled_iff (fun hrej => Bool.noConfusion hrej) (hfirst.mpr hne) ops).mpr h

/-! ## Undo, then redo -/

/-- Boards and moves of a game, and the flags the moves were made with. -/
def record (g : Game) : History Board (Move × BitVec 32) where
  start := g.initialBoard
  entries := g.entries.map fun e => (e.board, e.move, e.flags)
  current := g.currentBoard
  undone := g.undoneEntries.map fun e => ((e.move, e.flags), e.board)

/-- The next board; the flags have no part in it. -/
def playRecorded (b : Board) (m : Move × BitVec 32) : Board := b.makeMove m.1

theorem record_checkResult (g : Game) : g.checkResult.record = g.record := by
  unfold checkResult
  simp only
  split_ifs <;> rfl

theorem record_continueOrEnd (g : Game) (now : Realtime) :
    (g.continueOrEnd now).record = g.record := by
  rw [← record_checkResult g]
  unfold continueOrEnd
  simp only
  split <;> rfl

theorem record_undoMove (g : Game) (now : Nat → Realtime) :
    (g.undoMove now).1.record = g.record.step playRecorded .undo := by
  unfold undoMove
  simp only [History.step, record, List.getLast?_map]
  cases h : g.entries.getLast? with
  | none => rfl
  | some last => simp [startClock, stopOldClocks]

theorem record_redoMove (g : Game) (now : Nat → Realtime) :
    (g.redoMove now).1.record = g.record.step playRecorded .redo := by
  unfold redoMove
  cases h : g.undoneEntries with
  | nil => simp [History.step, record, h]
  | cons undone rest =>
    simp only [record_continueOrEnd]
    simp [History.step, record, h, stopOldClocks, stopClock]

/-- So many calls of `undo_move`, with what they return. -/
def undoMoves (g : Game) : List (Nat → Realtime) → Game × List Bool
  | [] => (g, [])
  | now :: rest =>
    let r := (g.undoMove now).1.undoMoves rest
    (r.1, (g.undoMove now).2 :: r.2)

/-- So many calls of `redo_move`, with what they return. -/
def redoMoves (g : Game) : List (Nat → Realtime) → Game × List Move
  | [] => (g, [])
  | now :: rest =>
    let r := (g.redoMove now).1.redoMoves rest
    (r.1, (g.redoMove now).2 :: r.2)

theorem record_undoMoves (g : Game) (us : List (Nat → Realtime)) :
    (g.undoMoves us).1.record =
      run (History.step playRecorded) g.record (List.replicate us.length .undo) := by
  induction us generalizing g with
  | nil => rfl
  | cons now us ih =>
    simp only [undoMoves, List.length_cons, List.replicate_succ, run, List.foldl_cons] at ih ⊢
    rw [ih, record_undoMove]

theorem record_redoMoves (g : Game) (rs : List (Nat → Realtime)) :
    (g.redoMoves rs).1.record =
      run (History.step playRecorded) g.record (List.replicate rs.length .redo) := by
  induction rs generalizing g with
  | nil => rfl
  | cons now rs ih =>
    simp only [redoMoves, List.length_cons, List.replicate_succ, run, List.foldl_cons] at ih ⊢
    rw [ih, record_redoMove]

omit [Build] in
theorem undoMove_snd (g : Game) (now : Nat → Realtime) :
    (g.undoMove now).2 = true ↔ g.entries ≠ [] := by
  unfold undoMove
  cases h : g.entries.getLast? with
  | none => simp [List.getLast?_eq_none_iff.mp h]
  | some last =>
    have hne : g.entries ≠ [] := by
      rintro hnil
      simp [hnil] at h
    simp [hne]

theorem length_entries_undoMove (g : Game) (now : Nat → Realtime) :
    (g.undoMove now).1.entries.length = g.entries.length - 1 := by
  have h := congrArg (fun h => h.entries.length) (record_undoMove g now)
  simpa [record, History.length_entries_undo] using h

/-- As long as there are entries, undoing succeeds. -/
theorem undoMoves_snd (g : Game) {us : List (Nat → Realtime)} (hk : us.length ≤ g.entries.length) :
    (g.undoMoves us).2 = List.replicate us.length true := by
  induction us generalizing g with
  | nil => rfl
  | cons now us ih =>
    rw [List.length_cons] at hk
    have hne : g.entries ≠ [] := List.ne_nil_of_length_pos (by omega)
    have hrest := ih (g.undoMove now).1 (by rw [length_entries_undoMove]; omega)
    simp only [undoMoves, hrest, (undoMove_snd g now).mpr hne, List.length_cons,
      List.replicate_succ]

theorem undoneEntries_continueOrEnd (g : Game) (now : Realtime) :
    (g.continueOrEnd now).undoneEntries = g.undoneEntries := by
  have hcheck : g.checkResult.undoneEntries = g.undoneEntries := by
    unfold checkResult
    simp only
    split_ifs <;> rfl
  unfold continueOrEnd
  simp only
  split <;> exact hcheck

/-- Redoing returns the moves of the undone entries. -/
theorem redoMoves_snd (g : Game) {rs : List (Nat → Realtime)}
    (hk : rs.length ≤ g.undoneEntries.length) :
    (g.redoMoves rs).2 = (g.undoneEntries.map GameEntry.move).take rs.length := by
  induction rs generalizing g with
  | nil => rfl
  | cons now rs ih =>
    cases hu : g.undoneEntries with
    | nil => simp [hu] at hk
    | cons undone rest =>
      have hmove : (g.redoMove now).2 = undone.move := by simp [redoMove, hu]
      have hrest : (g.redoMove now).1.undoneEntries = rest := by
        simp only [redoMove, hu]
        exact undoneEntries_continueOrEnd _ _
      have hlen : rs.length ≤ (g.redoMove now).1.undoneEntries.length := by
        rw [hu, List.length_cons, List.length_cons] at hk
        rw [hrest]
        omega
      simp only [redoMoves, ih _ hlen, hmove, hrest, List.length_cons, List.map_cons,
        List.take_succ_cons]

/-- Redoing a move computes the result, whatever was stored before. -/
theorem fresh_redoMoves (g : Game) {rs : List (Nat → Realtime)}
    (hg : g.Fresh ∨ (rs ≠ [] ∧ g.undoneEntries ≠ [])) : (g.redoMoves rs).1.Fresh := by
  induction rs generalizing g with
  | nil =>
    rcases hg with hf | ⟨hne, _⟩
    · exact hf
    · exact absurd rfl hne
  | cons now rs ih =>
    refine ih (g.redoMove now).1 (Or.inl ?_)
    cases hu : g.undoneEntries with
    | nil =>
      have hsame : (g.redoMove now).1 = g := by simp [redoMove, hu]
      rw [hsame]
      exact hg.resolve_right fun h => h.2 hu
    | cons undone rest => exact fresh_redoMove hu now

/-- The same record has the same result, unless it is stale. -/
theorem outcome_of_record (h : g'.record = g.record) (hf' : g'.Fresh) (hf : g.Fresh) :
    g'.outcome = g.outcome := by
  have he : g'.entries.map GameEntry.board = g.entries.map GameEntry.board := by
    have hentries := congrArg (fun h => h.entries.map Prod.fst) h
    simpa [record, Function.comp_def] using hentries
  rw [hf', hf]
  exact verdict_congr (congrArg History.current h) he

theorem record_makeMove (g : Game) (m : Made) :
    (g.makeMove m.move m.flags m.now).record =
      g.record.step playRecorded (.play (m.move, m.flags)) := by
  have h : (g.makeMove m.move m.flags m.now).record =
      { (continueOrEnd { g.stopClock (m.now 0) with
          entries := g.entries ++ [⟨g.currentBoard, m.move, g.oldClock, m.flags⟩],
          currentBoard := g.currentBoard.makeMove m.move,
          oldClock := (g.stopClock (m.now 0)).currentClock } (m.now 1)).record with undone := [] } :=
    rfl
  rw [h, record_continueOrEnd]
  simp [record, History.step, stopClock, playRecorded]

theorem record_makeMoves (g : Game) (ms : List Made) :
    (g.makeMoves ms).record =
      run (History.step playRecorded) g.record ((ms.map fun m => (m.move, m.flags)).map .play) := by
  induction ms generalizing g with
  | nil => rfl
  | cons m ms ih =>
    have hstep := ih (g.makeMove m.move m.flags m.now)
    rw [record_makeMove] at hstep
    exact hstep

theorem moves_makeMoves (board : Board) (wclock bclock : Clock) (ms : List Made) :
    ((construct board wclock bclock).makeMoves ms).entries.map GameEntry.move =
      ms.map Made.move := by
  have hrecord := record_makeMoves (construct board wclock bclock) ms
  have h := History.entries_run_play playRecorded (ms.map fun m => (m.move, m.flags))
    (construct board wclock bclock).record
  rw [← hrecord] at h
  have hmoves := congrArg (List.map Prod.fst) h
  rw [List.map_append, List.map_map, List.map_map] at hmoves
  simp only [record, List.map_map] at hmoves
  exact hmoves

theorem undoneEntries_makeMoves (board : Board) (wclock bclock : Clock) (ms : List Made) :
    ((construct board wclock bclock).makeMoves ms).undoneEntries = [] := by
  have hrecord := record_makeMoves (construct board wclock bclock) ms
  have h := History.undone_run_play playRecorded (ms.map fun m => (m.move, m.flags))
    (h := (construct board wclock bclock).record) rfl
  rw [← hrecord] at h
  exact List.map_eq_nil_iff.mp h

/-- Undoing `us.length` moves and redoing as many leads back to the record. -/
theorem record_redoMoves_undoMoves (g : Game) {us rs : List (Nat → Realtime)}
    (hk : us.length ≤ g.entries.length) (hr : rs.length = us.length) :
    ((g.undoMoves us).1.redoMoves rs).1.record = g.record := by
  have hlen : us.length ≤ g.record.entries.length := by simpa [record] using hk
  have hback := History.run_undo_redo playRecorded hlen
  rw [record_redoMoves, record_undoMoves, hr]
  rw [run, List.foldl_append] at hback
  exact hback

/-- What `us.length` undos make ready to redo. -/
theorem undone_undoMoves (g : Game) {us : List (Nat → Realtime)}
    (hk : us.length ≤ g.entries.length) (hu : g.undoneEntries = []) :
    (g.undoMoves us).1.undoneEntries.map GameEntry.move =
      (g.entries.map GameEntry.move).drop (g.entries.length - us.length) := by
  have hlen : us.length ≤ g.record.entries.length := by simpa [record] using hk
  have hundone := History.undone_run_undo playRecorded hlen
  rw [← record_undoMoves] at hundone
  have hmoves := congrArg (List.map Prod.fst) hundone
  simpa [record, hu, List.map_drop, Function.comp_def] using hmoves

/-- **Redo undoes undo.**  In a game made of moves, `us.length` undos succeed; as many redos return
the moves undone, in the order they were played, and restore all but the clocks. -/
theorem redoMoves_undoMoves (board : Board) (wclock bclock : Clock) (ms : List Made)
    (us rs : List (Nat → Realtime)) (hk : us.length ≤ ms.length) (hr : rs.length = us.length) :
    let g := (construct board wclock bclock).makeMoves ms
    let back := g.undoMoves us
    let again := back.1.redoMoves rs
    back.2 = List.replicate us.length true ∧
      again.2 = (ms.map Made.move).drop (ms.length - us.length) ∧
      again.1.record = g.record ∧ again.1.undoneEntries = [] ∧ again.1.outcome = g.outcome := by
  intro g back again
  have hmoves : g.entries.map GameEntry.move = ms.map Made.move :=
    moves_makeMoves board wclock bclock ms
  have hlen : g.entries.length = ms.length := by
    have h := congrArg List.length hmoves
    simpa using h
  have hundone : g.undoneEntries = [] := undoneEntries_makeMoves board wclock bclock ms
  have hk' : us.length ≤ g.entries.length := by rw [hlen]; exact hk
  have hready := undone_undoMoves g hk' hundone
  have hcount : back.1.undoneEntries.length = us.length := by
    have h := congrArg List.length hready
    rw [List.length_map, List.length_drop, List.length_map] at h
    rw [h]
    omega
  have hagain : again.1.record = g.record := record_redoMoves_undoMoves g hk' hr
  refine ⟨undoMoves_snd g hk', ?_, hagain, ?_, ?_⟩
  · have hret : again.2 = _ := redoMoves_snd back.1 (by omega)
    rw [hready, hmoves, hlen] at hret
    refine hret.trans (List.take_of_length_le ?_)
    rw [List.length_drop, List.length_map]
    omega
  · have h := congrArg (fun h => h.undone) hagain
    simp only [record, hundone, List.map_nil] at h
    exact List.map_eq_nil_iff.mp h
  · rcases List.eq_nil_or_concat' us with hnil | ⟨us', u, hus⟩
    · have hrs : rs = [] := List.length_eq_zero_iff.mp (by rw [hr, hnil]; rfl)
      simp only [again, back, hnil, hrs, undoMoves, redoMoves]
    · have hpos : 0 < us.length := by
        rw [hus, List.length_append]
        exact Nat.succ_pos _
      have hms : ms ≠ [] := List.ne_nil_of_length_pos (by omega)
      have hf : g.Fresh := fresh_makeMoves _ hms
      have hf' : again.1.Fresh := fresh_redoMoves back.1
        (Or.inr ⟨List.ne_nil_of_length_pos (by omega), List.ne_nil_of_length_pos (by omega)⟩)
      exact outcome_of_record hagain hf' hf

end Results

/-- 1. e4 e5 is played, taken back and played again. -/
theorem redo_openGame : ∃ b, @Board.parseFen sampleBuild openingFen = .accepted b ∧
    @Asserted sampleBuild b kingsPawn ∧
      @Asserted sampleBuild (@Board.makeMove sampleBuild b kingsPawn) kingsPawnBack ∧
    let g := @makeMoves sampleBuild (construct b .untimed .untimed)
      [⟨kingsPawn, 0, fun _ => 0⟩, ⟨kingsPawnBack, 0, fun _ => 0⟩]
    let again := @redoMoves sampleBuild (g.undoMoves [fun _ => 0, fun _ => 0]).1
      [fun _ => 0, fun _ => 0]
    again.2 = [kingsPawn, kingsPawnBack] ∧ again.1.record = g.record ∧
      again.1.outcome = g.outcome := by
  let _ := sampleBuild
  obtain ⟨b, hb, hfirst, hsecond⟩ := openGame_asserted
  have h := redoMoves_undoMoves b .untimed .untimed
    [⟨kingsPawn, 0, fun _ => 0⟩, ⟨kingsPawnBack, 0, fun _ => 0⟩] [fun _ => 0, fun _ => 0]
    [fun _ => 0, fun _ => 0] le_rfl rfl
  exact ⟨b, hb, hfirst, hsecond, h.2.1, h.2.2.1, h.2.2.2.2⟩

/-- Mate on the back rank. -/
def backRankMate : Move := .normal 0 56 (some .rook)

/-- **White mates and takes the mate back**: the game is open again, but its result string is `1-0`.
A game just made has no result string at all. -/
theorem result_stale_after_undo : ∃ b,
    @Board.parseFen sampleBuild "6k1/5ppp/8/8/8/8/8/R5K1 w - - 0 1" = .accepted b ∧
    @Asserted sampleBuild b backRankMate ∧
    ¬ @Noted.Settled sampleBuild ⟨@ofPgn sampleBuild b .untimed .untimed [], false⟩ ∧
    let g := @ofPgn sampleBuild b .untimed .untimed [(backRankMate, fun _ => 0)]
    ¬ Visits (@Noted.step sampleBuild) (@Noted.Settled sampleBuild) ⟨g, false⟩
      [.undoMove fun _ => 0] ∧
    (@undoMove g fun _ => 0).1.outcome = (.open, "1-0", "White mates") := by
  let _ := sampleBuild
  have hrun : (Board.parseFen "6k1/5ppp/8/8/8/8/8/R5K1 w - - 0 1").holds (fun b =>
      b.isValidMove backRankMate && b.isLegalMove backRankMate &&
        (b.makeMove backRankMate).isMate && decide ((b.makeMove backRankMate).side = .black)) =
      true := by
    decide +kernel
  obtain ⟨b, hb, hmov⟩ := FenResult.holds_eq_true.mp hrun
  simp only [Bool.and_eq_true, decide_eq_true_eq] at hmov
  obtain ⟨⟨⟨hvalid, hlegal⟩, hmate⟩, hside⟩ := hmov
  refine ⟨b, hb, ⟨hvalid, hlegal⟩, ?_, ?_⟩
  · rintro (hf | ⟨hrej, _⟩)
    · exact not_fresh_construct b .untimed .untimed hf
    · exact Bool.noConfusion hrej
  · intro g
    have hg : g.Fresh := fresh_makeMove _ backRankMate 0 fun _ => 0
    have hboard : g.currentBoard = b.makeMove backRankMate :=
      congrArg History.current (history_makeMove (construct b .untimed .untimed) backRankMate 0 fun _ => 0)
    have hverdict : g.verdict = (.whitemates, "1-0", "White mates") := by
      simp [verdict_eq, hboard, hmate, hside]
    have hone : g.entries.map GameEntry.move = [backRankMate] :=
      moves_makeMoves b .untimed .untimed [⟨backRankMate, 0, fun _ => 0⟩]
    have hne : g.entries ≠ [] := by
      rintro hnil
      simp [hnil] at hone
    constructor
    · rintro ⟨_, hf | ⟨hrej, _⟩⟩
      · obtain ⟨back, hback⟩ := Option.ne_none_iff_exists'.mp (takenBack_eq_none.not.mpr hne)
        have hopen := ((fresh_undoMove hback hg fun _ => 0).mp hf).1.1
        rw [hboard, hmate] at hopen
        cases hopen
      · exact Bool.noConfusion hrej
    · rw [outcome_undoMove hne, hg, hverdict]

end Game

end HoiChess
