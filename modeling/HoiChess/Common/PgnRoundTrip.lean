import HoiChess.Chess.OneMan
import HoiChess.Chess.Playable
import HoiChess.Chess.ReadBack
import HoiChess.Common.PgnText

/-!
# Games are read back from what is written

The board on which `PGN::parse` makes the moves has forgotten what a FEN does not say, but it
is alike to the board of the game (`Board.Alike`), move after move.  So it reads a move as the
game played it exactly if the game's board does (`readTexts_iff`), and a game is read back
exactly if its opening puts one man on a square and no move is misread (`game_pgnInverse_iff`).
-/

namespace HoiChess

open Chess Rules Stdio Run WordSet Grid

namespace Chess

/-! ## The texts of moves -/

instance : DecidablePred Pgn.InWord := fun _ => inferInstanceAs (Decidable (_ ∧ _))

/-- At most so many characters, all within a word. -/
def Wordy (n : Nat) (s : List Char) : Prop := (∀ c ∈ s, Pgn.InWord c) ∧ s.length ≤ n

theorem Wordy.append {m n : Nat} {s t : List Char} (hs : Wordy m s) (ht : Wordy n t) :
    Wordy (m + n) (s ++ t) := by
  refine ⟨fun c hc => (List.mem_append.mp hc).elim (hs.1 c) (ht.1 c), ?_⟩
  rw [List.length_append]
  exact Nat.add_le_add hs.2 ht.2

instance (n : Nat) : DecidablePred (Wordy n) := fun _ => inferInstanceAs (Decidable (_ ∧ _))

theorem wordy_file (f : Option (Fin 8)) : Wordy 1 (f.map fileLetter).toList := by
  have hall : ∀ f, Wordy 1 [fileLetter f] := by decide
  cases f with
  | none => decide
  | some f => exact hall f

theorem wordy_rank (r : Option (Fin 8)) : Wordy 1 (r.map rankLetter).toList := by
  have hall : ∀ r, Wordy 1 [rankLetter r] := by decide
  cases r with
  | none => decide
  | some r => exact hall r

theorem wordy_square (sq : Square) : Wordy 2 (squareStr sq) :=
  (wordy_file (some (filIdx sq))).append (wordy_rank (some (rnkIdx sq)))

theorem wordy_piece (p : Piece) : Wordy 1 [pieceLetter p] := by
  cases p <;> decide

theorem wordy_promo (p : Option Piece) : Wordy 2 (promoChars p) := by
  cases p with
  | none => decide
  | some p =>
    have heq : Wordy 1 ['='] := by decide
    exact heq.append (wordy_piece p)

theorem wordy_capture (capture : Bool) : Wordy 1 (if capture then ['x'] else []) := by
  cases capture <;> decide

theorem wordy_chars (t : SanText) : Wordy 6 t.chars := by
  cases t with
  | castle long => cases long <;> decide
  | pawn f capture dst promo =>
    exact (((wordy_file f).append (wordy_capture capture)).append (wordy_square dst)).append
      (wordy_promo promo)
  | piece p f r capture dst =>
    exact ((((wordy_piece p).append (wordy_file f)).append (wordy_rank r)).append
      (wordy_capture capture)).append (wordy_square dst)

theorem head_chars (t : SanText) : ∃ c, t.chars.head? = some c ∧ c.isAlpha = true := by
  have hfile : ∀ f, (fileLetter f).isAlpha = true := by decide
  have hpiece : ∀ p, (pieceLetter p).isAlpha = true := by
    intro p
    cases p <;> decide
  cases t with
  | castle long => cases long <;> exact ⟨'O', rfl, by decide⟩
  | pawn f capture dst promo =>
    cases f with
    | some f => exact ⟨_, rfl, hfile f⟩
    | none =>
      cases capture with
      | true => exact ⟨'x', rfl, by decide⟩
      | false => exact ⟨_, rfl, hfile (filIdx dst)⟩
  | piece p f r capture dst => exact ⟨_, rfl, hpiece p⟩

/-- **What is printed of a move is one word**, and none that says something else. -/
theorem Rules.Ply.sanlike_san [Build] (ply : Ply) (b : Board) (nonstd : Nat) :
    Pgn.Sanlike (ply.encode.san b nonstd) := by
  have hmark : ∀ c ∈ checkMarks, Wordy 1 c := by decide
  have hword := (wordy_chars (ply.sanText b nonstd)).append (hmark _ (sanCheck_mem ply.encode b nonstd))
  obtain ⟨c, hc, halpha⟩ := head_chars (ply.sanText b nonstd)
  rw [ply.san_encode]
  refine ⟨hword.1, lt_of_le_of_lt hword.2 (by decide), c, ?_, halpha⟩
  rw [List.head?_append, hc]
  rfl

/-! ## Boards that stand for the same position -/

section Boards

variable [Build] {b b' : Board} {ply : Ply}

/-- But for what it counts, the board is a board of the rules. -/
def Board.Stands (b : Board) : Prop := Sane b.abs ∧ ∃ t, Sim (b.withTally t) b.abs

theorem Board.Stands.makeMove (h : b.Stands) (hl : b.abs.Legal ply) :
    (b.makeMove ply.encode).Stands ∧ (b.makeMove ply.encode).abs = b.abs.apply ply := by
  obtain ⟨hs, t, hsim⟩ := h
  have halike : b.Alike (b.withTally t) := ⟨t, rfl⟩
  have hnext := hsim.makeMove hs hl.1
  obtain ⟨t', ht'⟩ := halike.makeMove ply.encode
  rw [ht'] at hnext
  have habs : (b.makeMove ply.encode).abs = b.abs.apply ply := hnext.abs_eq
  refine ⟨⟨?_, t', ?_⟩, habs⟩
  · rw [habs]
    exact hs.apply hl
  · rw [habs]
    exact hnext

theorem Board.Alike.misread_iff (h : b.Alike b') : b'.Misread ply ↔ b.Misread ply := by
  have hfits : ∀ src dst p cap c, b'.Fits src dst p cap c ↔ b.Fits src dst p cap c := by
    intro src dst p cap c
    simp only [Board.Fits, h.abs, h.side, h.legalMoves]
  cases ply with
  | move src dst p cap => simp only [Board.Misread, Board.Overtakes, hfits, h.abs]
  | promote => exact Iff.rfl
  | enpassant => exact Iff.rfl
  | castle => exact Iff.rfl

/-- **A board that is alike reads back what is printed** exactly if the move is not misread. -/
theorem Board.Stands.readsSan_iff (h : b.Stands) (halike : b.Alike b') (hl : b.abs.Legal ply) :
    b'.parseMove1 (ply.encode.san b 0) = ply.encode ↔ ¬ b.Misread ply := by
  obtain ⟨hs, t, hsim⟩ := h
  have hcount : b.Alike (b.withTally t) := ⟨t, rfl⟩
  rw [halike.parseMove1, ← hcount.parseMove1, ← hcount.san, hsim.readsSan_iff_not_misread hs hl,
    hcount.misread_iff]

end Boards

/-- Legal by the rules, in the position that the board stands for. -/
def Board.Permits (b : Board) (mov : Move) : Prop := ∃ ply, ply.encode = mov ∧ b.abs.Legal ply

/-- The move is misread on the board. -/
def Board.MisreadsMove [Build] (b : Board) (mov : Move) : Prop :=
  ∃ ply, ply.encode = mov ∧ b.Misread ply

/-- Castling rights and en passant square fit the men. -/
def Board.FieldsFit (b : Board) : Prop :=
  (∀ f, b.hasFlag f = true → b.manAt f.kingHome = some (f.color, .king) ∧
    b.manAt f.rookHome = some (f.color, .rook)) ∧
  ∀ e, b.epsq = some e → EpSane b.manAt b.side e

theorem Board.FieldsFit.ep_rank {b : Board} (h : b.FieldsFit) {e : Square} (he : b.epsq = some e) :
    rnk e = rank3 ∨ rnk e = rank6 := by
  have hr := (h.2 e he).rank
  cases hside : b.side <;> rw [hside] at hr
  · exact Or.inr hr
  · exact Or.inl hr

end Chess

/-! ## The moves of a game -/

section Texts

variable [Build]

/-- **All moves are read as they were played exactly if none of them is misread.** -/
theorem readTexts_iff {b b' cur : Board} {es : List GameEntry} (h : b.Stands) (halike : b.Alike b')
    (hline : Replays Board.makeMove Board.Permits b (es.map GameEntry.played) cur) :
    Pgn.readTexts b' (Pgn.sanTexts es) = (es.map GameEntry.move, true) ↔
      ∀ e ∈ es, ¬ e.board.MisreadsMove e.move := by
  induction es generalizing b b' with
  | nil => simp [Pgn.readTexts, Pgn.sanTexts]
  | cons e es ih =>
    obtain ⟨hb, ⟨ply, hply, hl⟩, hrest⟩ := hline
    have hboard : e.board = b := hb
    have hmove : e.move = ply.encode := hply.symm
    have hmiss : e.board.MisreadsMove e.move ↔ b.Misread ply := by
      rw [hboard, hmove]
      constructor
      · rintro ⟨ply', hp, hm⟩
        rwa [← Ply.encode_injective hp]
      · exact fun hm => ⟨ply, rfl, hm⟩
    have hread := h.readsSan_iff halike hl
    have hprint : Pgn.sanTexts (e :: es) = ply.encode.san b 0 :: Pgn.sanTexts es := by
      show e.move.san e.board 0 :: Pgn.sanTexts es = _
      rw [hboard, hmove]
    rw [hprint, Pgn.readTexts, List.forall_mem_cons, hmiss, ← hread]
    have hparse : PgnBoard.parseMove1 b' (ply.encode.san b 0) =
        if b'.parseMove1 (ply.encode.san b 0) = .noMove then none
        else some (b'.parseMove1 (ply.encode.san b 0)) := rfl
    rw [hparse]
    by_cases hok : b'.parseMove1 (ply.encode.san b 0) = ply.encode
    · rw [hok, if_neg ply.encode_ne_noMove, and_iff_right rfl]
      obtain ⟨hnext, _⟩ := h.makeMove hl
      have hrest' : Replays Board.makeMove Board.Permits (b.makeMove ply.encode)
          (es.map GameEntry.played) cur := by
        have : (e.played).2 = ply.encode := hmove
        rwa [this] at hrest
      rw [← ih hnext (halike.makeMove ply.encode) hrest']
      show (ply.encode :: _, _) = (e.move :: es.map GameEntry.move, true) ↔ _
      rw [hmove]
      simp [Prod.ext_iff, PgnBoard.makeMove]
    · refine iff_of_false ?_ fun hall => hok hall.1
      split
      · intro e'
        cases congrArg Prod.snd e'
      · rename_i mov hsome
        split at hsome
        · cases hsome
        · cases hsome
          intro e'
          have hhead := List.head_eq_of_cons_eq (congrArg Prod.fst e')
          exact hok (hhead.trans hmove)

end Texts

/-! ## Games -/

theorem Chess.Board.Alike.sameAs {b b' : Board} (h : b.Alike b') : b'.sameAs b = true := by
  obtain ⟨t, rfl⟩ := h
  simp [Board.sameAs, Board.withTally]

theorem Chess.Board.OneMan.of_sameAs {b b' : Board} (h : b'.OneMan) (he : b'.sameAs b = true) :
    b.OneMan := by
  have hpos : b'.position = b.position := by
    unfold Board.sameAs at he
    simp only [Bool.and_eq_true, decide_eq_true_eq] at he
    exact he.1.1.1
  intro sq c p c' p' hm hm'
  rw [Board.pos, ← hpos] at hm hm'
  exact h sq c p c' p' hm hm'

/-- The king of an accepted board stands somewhere. -/
theorem exists_pieceAt_of_accepted [Build] {s : String} {b : Board}
    (h : Board.parseFen s = .accepted b) : ∃ sq p, b.pieceAt sq = some p := by
  obtain ⟨f, b0, _, _, _, hvalid, _⟩ := steps_of_accepted h
  unfold Board.isValid at hvalid
  simp only [Bool.and_eq_true, decide_eq_true_eq] at hvalid
  obtain ⟨sq, hsq⟩ := (count_eq_one _).mp hvalid.1.1.1
  refine ⟨sq, Option.isSome_iff_exists.mp ?_⟩
  rw [Board.pieceAt, List.find?_isSome]
  refine ⟨.king, by decide, ?_⟩
  rw [Bitboard.testbit, mem_or, (hsq sq).mpr rfl]
  rfl

namespace Game

section Results

variable [Build] {g : Game}

theorem resultOk_checkResult (g : Game) : g.checkResult.ResultOk := by
  have hset : ∀ r s c, String.toList s ∈ Pgn.resultTokens → (g.setResult r s c).ResultOk :=
    fun r s c h => Or.inl h
  unfold checkResult
  simp only
  split
  · split
    · exact hset _ _ _ (by decide)
    · exact hset _ _ _ (by decide)
  split
  · exact hset _ _ _ (by decide)
  split
  · exact hset _ _ _ (by decide)
  split
  · exact hset _ _ _ (by decide)
  split
  · exact hset _ _ _ (by decide)
  · exact hset _ _ _ (by decide)

theorem resultOk_continueOrEnd (g : Game) (now : Realtime) : (g.continueOrEnd now).ResultOk := by
  have h := resultOk_checkResult g
  unfold continueOrEnd
  simp only
  split
  · exact h
  · exact h

/-- **Every call leaves a game with a result that can be written.** -/
theorem ResultOk.step (h : g.ResultOk) (op : GameOp) : (g.step op).ResultOk := by
  cases op with
  | makeMove mov flags now => exact resultOk_continueOrEnd _ (now 1)
  | undoMove now =>
    show (g.undoMove now).1.ResultOk
    unfold undoMove
    split
    · exact h
    · exact h
  | redoMove now =>
    show (g.redoMove now).1.ResultOk
    unfold redoMove
    split
    · exact h
    · exact resultOk_continueOrEnd _ (now 3)
  | setBoard board => exact resultOk_checkResult _
  | setBoardFen fen =>
    show (g.setBoardFen fen).1.ResultOk
    unfold setBoardFen
    split
    · exact resultOk_checkResult _
    · exact h
    · exact h
  | setClocks wclock bclock now =>
    show (g.setClocks wclock bclock now).ResultOk
    unfold setClocks
    dsimp only
    split
    · exact h
    · exact h
  | start now => exact h

theorem resultOk_run (board : Board) (wclock bclock : Clock) (ops : List GameOp) :
    (run step (construct board wclock bclock) ops).ResultOk := by
  have hrun : ∀ g : Game, g.ResultOk → (run Game.step g ops).ResultOk := by
    induction ops with
    | nil => exact fun g h => h
    | cons op ops ih => exact fun g h => ih _ (h.step op)
  exact hrun _ (Or.inr ⟨rfl, rfl⟩)

end Results

section RoundTrip

variable [Build] {g : Game}

/-- `parse` returns true for the text of the game, and finds its opening and its moves. -/
def PgnInverse (g : Game) : Prop :=
  let r : Pgn.Parsed Board Move := Pgn.parse (.ofText g.writePgn)
  r.ok = true ∧ r.pgn.opening.sameAs g.initialBoard = true ∧
    r.pgn.moves = g.entries.map GameEntry.move

theorem ofen_of_replayable {legal : Board → Move → Prop} (hr : g.Replayable legal) :
    g.ofen = g.initialBoard.getFen := by
  unfold Replayable at hr
  unfold ofen
  cases he : g.entries with
  | nil =>
    rw [he] at hr
    have hr : g.initialBoard = g.currentBoard := hr
    rw [hr]
  | cons e es =>
    rw [he] at hr
    have hr : e.board = g.initialBoard := hr.1
    exact congrArg Board.getFen hr

theorem permits_of_replays {b cur : Board} {es : List GameEntry}
    (hline : Replays Board.makeMove Board.Permits b (es.map GameEntry.played) cur) :
    ∀ e ∈ es, e.board.Permits e.move := by
  induction es generalizing b with
  | nil => exact fun e he => by cases he
  | cons e es ih =>
    obtain ⟨hb, hl, hrest⟩ := hline
    have hb : e.board = b := hb
    refine List.forall_mem_cons.mpr ⟨?_, ih hrest⟩
    rw [hb]
    exact hl

theorem pgnParseFen_accepted {s : String} {b : Board} (h : Board.parseFen s = .accepted b) :
    (PgnBoard.parseFen s : Board × Bool) = (b, true) := by
  simp only [PgnBoard.parseFen, h]

theorem accepted_of_pgnParseFen {s : String}
    (h : (PgnBoard.parseFen s : Board × Bool).2 = true) :
    Board.parseFen s = .accepted (PgnBoard.parseFen s : Board × Bool).1 := by
  cases hp : Board.parseFen s with
  | accepted b => rw [pgnParseFen_accepted hp]
  | rejected =>
    simp only [PgnBoard.parseFen, hp] at h
    cases h
  | undefined =>
    simp only [PgnBoard.parseFen, hp] at h
    cases h

/-- **When a game is read back**, with a result that can be written. -/
theorem ResultOk.pgnInverse_iff (hg : g.ResultOk) {s : String}
    (hs : Board.parseFen s = .accepted g.initialBoard) (hfit : g.initialBoard.FieldsFit)
    (hr : g.Replayable Board.Permits) :
    g.PgnInverse ↔ g.initialBoard.OneMan ∧ ∀ e ∈ g.entries, ¬ e.board.MisreadsMove e.move := by
  have hparse := hg.parse_writePgn
  rw [ofen_of_replayable hr] at hparse
  unfold PgnInverse
  by_cases h1 : g.initialBoard.OneMan
  · rw [and_iff_right h1]
    obtain ⟨b', hb', halike⟩ := parseFen_getFen_alike hs h1 fun e he => hfit.ep_rank he
    obtain ⟨man, hsim, hv⟩ := sim_of_oneMan hs h1
    have hstands : g.initialBoard.Stands := ⟨⟨hv, hfit.1, hfit.2⟩, _, hsim⟩
    rw [← readTexts_iff hstands halike hr]
    have hsan : ∀ e ∈ g.entries, Pgn.Sanlike (e.move.san e.board 0) := by
      intro e he
      obtain ⟨ply, hply, _⟩ := permits_of_replays hr e he
      rw [← hply]
      exact ply.sanlike_san _ _
    obtain ⟨fp, hmoves⟩ := Pgn.readMoves_pgnMoves hsan (fun board moves => hg.readMoves board moves)
      1 0 b' []
    rw [pgnParseFen_accepted hb'] at hparse
    simp only [if_true, hmoves, List.nil_append] at hparse
    simp only [hparse]
    rw [and_iff_right (show b'.sameAs g.initialBoard = true from halike.sameAs), Prod.ext_iff, and_comm]
  · refine iff_of_false ?_ fun h => h1 h.1
    rintro ⟨hok, hsame, _⟩
    have hman := exists_pieceAt_of_accepted hs
    by_cases hacc : (PgnBoard.parseFen g.initialBoard.getFen : Board × Bool).2 = true
    · obtain ⟨b', hb'⟩ : ∃ b', Board.parseFen g.initialBoard.getFen = .accepted b' :=
        ⟨_, accepted_of_pgnParseFen hacc⟩
      have hone := oneMan_of_parseFen_getFen hman (movecnt50_of_accepted hs) hb'
      rw [pgnParseFen_accepted hb'] at hparse
      rw [hparse] at hsame
      exact h1 (hone.of_sameAs hsame)
    · rw [hparse, if_neg hacc] at hok
      cases hok

/-- **When a game is read back from what is written of it.**  The game has seen any calls; its
opening is an accepted board, and its moves are legal. -/
theorem game_pgnInverse_iff (board : Board) (wclock bclock : Clock) (ops : List GameOp)
    (hg : run step (construct board wclock bclock) ops = g) {s : String}
    (hs : Board.parseFen s = .accepted g.initialBoard) (hfit : g.initialBoard.FieldsFit)
    (hr : g.Replayable Board.Permits) :
    g.PgnInverse ↔ g.initialBoard.OneMan ∧ ∀ e ∈ g.entries, ¬ e.board.MisreadsMove e.move := by
  subst hg
  exact (resultOk_run board wclock bclock ops).pgnInverse_iff hs hfit hr

end RoundTrip

/-! ## Two games of one move -/

section OneMove

variable [Build] {b : Board} {mov : Move}

/-- The game in which the move is made on the board. -/
def oneMove (b : Board) (mov : Move) : Game :=
  run step (construct b .untimed .untimed) [.makeMove mov 0 (fun _ => 0)]

theorem history_oneMove (b : Board) (mov : Move) :
    (oneMove b mov).history = ⟨b, [(b, mov)], b.makeMove mov, []⟩ := by
  show (Game.step (construct b .untimed .untimed) (.makeMove mov 0 (fun _ => 0))).history = _
  rw [step_history]
  rfl

theorem initialBoard_oneMove (b : Board) (mov : Move) : (oneMove b mov).initialBoard = b :=
  congrArg History.start (history_oneMove b mov)

theorem replayable_oneMove (h : b.Permits mov) : (oneMove b mov).Replayable Board.Permits := by
  show (oneMove b mov).history.Replayable Board.makeMove Board.Permits
  rw [history_oneMove]
  exact ⟨rfl, h, rfl⟩

theorem forall_mem_oneMove (b : Board) (mov : Move) :
    (∀ e ∈ (oneMove b mov).entries, ¬ e.board.MisreadsMove e.move) ↔ ¬ b.MisreadsMove mov := by
  have hplayed : (oneMove b mov).entries.map GameEntry.played = [(b, mov)] :=
    congrArg History.entries (history_oneMove b mov)
  have hmap : (∀ e ∈ (oneMove b mov).entries, ¬ e.board.MisreadsMove e.move) ↔
      ∀ q ∈ (oneMove b mov).entries.map GameEntry.played, ¬ q.1.MisreadsMove q.2 := by
    rw [List.forall_mem_map]
    exact Iff.rfl
  rw [hmap, hplayed, List.forall_mem_singleton]

end OneMove

/-- The advance of the king's pawn is read back. -/
theorem pgnInverse_kingsPawn : ∃ b, @Board.parseFen sampleBuild openingFen = .accepted b ∧
    @PgnInverse sampleBuild (@oneMove sampleBuild b kingsPawn) := by
  let _ := sampleBuild
  obtain ⟨b, hb, hsim⟩ := parseFen_opening
  have hstart := initialBoard_oneMove b kingsPawn
  have hs : Board.parseFen openingFen = .accepted (oneMove b kingsPawn).initialBoard := by
    rw [hstart, hb]
  have hfit : (oneMove b kingsPawn).initialBoard.FieldsFit := by
    rw [hstart]
    have hsane : Sane b.abs := hsim.abs_eq ▸ sane_opening
    exact ⟨hsane.rights, hsane.ep⟩
  have hl : Rules.opening.Legal (.move 12 28 .pawn none) := by decide +kernel
  have hr : (oneMove b kingsPawn).Replayable Board.Permits := replayable_oneMove
    ⟨.move 12 28 .pawn none, rfl, hsim.abs_eq ▸ hl⟩
  refine ⟨b, hb, (game_pgnInverse_iff b .untimed .untimed _ rfl hs hfit hr).mpr ⟨?_, ?_⟩⟩
  · show (oneMove b kingsPawn).initialBoard.OneMan
    rw [hstart]
    exact hsim.consistent.oneMan
  · show ∀ e ∈ (oneMove b kingsPawn).entries, _
    rw [forall_mem_oneMove]
    rintro ⟨ply, hply, hmiss⟩
    have hpush : ply = .move 12 28 .pawn none := Ply.encode_injective hply
    subst hpush
    exact hmiss.1 rfl

/-- Both rooks are pinned, and the one on `e4` may step back to `e3`. -/
def pinnedRooks : Position where
  man sq :=
    if sq = 4 then some (.white, .king)
    else if sq = 18 ∨ sq = 28 then some (.white, .rook)
    else if sq = 32 then some (.black, .bishop)
    else if sq = 60 then some (.black, .rook)
    else if sq = 63 then some (.black, .king)
    else none
  side := .white
  right _ := false
  ep := none

theorem materialOk_pinnedRooks : MaterialOk pinnedRooks := by
  have h : ∀ c, surplus pinnedRooks.man c ≤ 8 := by decide
  exact h

theorem sanMissed_pinnedRooks : pinnedRooks.SanMissed (.move 28 20 .rook none) := by
  have hline : Aligned (slideDirs .rook) (60 : Square) e1 :=
    ⟨(0, -1), by decide, 7, by decide, by decide, by decide⟩
  refine ⟨by decide, ⟨60, e1, ⟨?_, ⟨.rook, ?_, hline⟩, ?_, ⟨.rook, ?_⟩, ?_⟩, ?_⟩, 18, ?_, ?_, ?_, ?_⟩
  all_goals decide +kernel

/-- A rook that shields its king is not read back where the other rook is pinned as well. -/
theorem not_pgnInverse_pinnedRooks :
    ∃ b, @Board.parseFen sampleBuild "4r2k/8/8/b7/4R3/2R5/8/4K3 w - - 0 1" = .accepted b ∧
      b.FieldsFit ∧ b.OneMan ∧ b.Permits (.normal 28 20 (some .rook)) ∧
      ¬ @PgnInverse sampleBuild (@oneMove sampleBuild b (.normal 28 20 (some .rook))) := by
  let _ := sampleBuild
  let men (b : Board) : Bool := decide ((∀ sq, b.manAt sq = pinnedRooks.man sq) ∧
    b.side = .white ∧ (∀ f, b.hasFlag f = false) ∧ b.epsq = none)
  have hrun : (Board.parseFen "4r2k/8/8/b7/4R3/2R5/8/4K3 w - - 0 1").holds men = true := by
    decide +kernel
  obtain ⟨b, hb, hmen⟩ := FenResult.holds_eq_true.mp hrun
  obtain ⟨hman, hside, hflags, hep⟩ := of_decide_eq_true hmen
  have habs : b.abs = pinnedRooks := by
    show Position.mk _ _ _ _ = _
    rw [funext hman, hside, funext hflags, hep]
    rfl
  obtain ⟨hsim, hv, _⟩ := sim_of_parseFen hb (by decide +kernel)
  have hfit : b.FieldsFit := by
    refine ⟨fun f hf => ?_, fun e he => ?_⟩
    · rw [hflags f] at hf
      cases hf
    · rw [hep] at he
      cases he
  have hs : Sane b.abs := ⟨hv, hfit.1, hfit.2⟩
  have hone := hsim.consistent.oneMan
  have hl : b.abs.Legal (.move 28 20 .rook none) := by
    rw [habs]
    decide +kernel
  have hpermit : b.Permits (.normal 28 20 (some .rook)) := ⟨_, rfl, hl⟩
  have hstart := initialBoard_oneMove b (.normal 28 20 (some .rook))
  refine ⟨b, hb, hfit, hone, hpermit, ?_⟩
  have hwritten : (oneMove b (.normal 28 20 (some .rook))).ResultOk :=
    resultOk_run b .untimed .untimed _
  have hparse : Board.parseFen "4r2k/8/8/b7/4R3/2R5/8/4K3 w - - 0 1" =
      .accepted (oneMove b (.normal 28 20 (some .rook))).initialBoard := by
    rw [hstart, hb]
  have hfits : (oneMove b (.normal 28 20 (some .rook))).initialBoard.FieldsFit := by
    rw [hstart]
    exact hfit
  rw [hwritten.pgnInverse_iff hparse hfits (replayable_oneMove hpermit), forall_mem_oneMove]
  rintro ⟨_, hread⟩
  refine hread ⟨_, rfl, (hsim.misread_iff hs ?_ hl).mpr ?_⟩
  · rw [habs]
    exact materialOk_pinnedRooks
  · rw [habs]
    exact sanMissed_pinnedRooks

end Game

end HoiChess
