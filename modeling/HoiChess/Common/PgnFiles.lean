import HoiChess.Common.PgnComment
import HoiChess.Common.Verdict

/-!
# Files of games

A stream is read from left to right, so a text whose movetext is reached begins with a head
that sets up the same board whatever follows it (`exists_heads`).  `parse_all` looks at the end
of the file before it reads anything and finds no game (`parseAll_written_iff`); `loadgame`
makes a game of what was read also where `parse` fails (`loadgame_keeps_iff`).
-/

namespace HoiChess

open Chess Rules Stdio Run

/-! ## Heads -/

namespace Pgn

/-- A line that does not reach the end of the file is read whatever follows it. -/
theorem fgets_ahead {size : Nat} {fp : Stream} {l t : List Char}
    (h : fgets size fp = (some l, ⟨t, false⟩)) :
    fp.rest = l ++ t ∧ ∀ t', fgets size (.ofText (l ++ t')) = (some l, .ofText t') := by
  have hline : ∀ (n : Nat) (s l : List Char), line n s = (l, ⟨t, false⟩) →
      s = l ++ t ∧ ∀ t', line n (l ++ t') = (l, ⟨t', false⟩) := by
    intro n
    induction n with
    | zero =>
      intro s l h
      cases h
      exact ⟨rfl, fun t' => rfl⟩
    | succ n ih =>
      intro s l h
      cases s with
      | nil => cases h
      | cons c cs =>
        by_cases hc : c = '\n'
        · rw [line, if_pos hc] at h
          cases h
          exact ⟨rfl, fun t' => by rw [List.singleton_append, line, if_pos hc]⟩
        · rw [line, if_neg hc] at h
          obtain ⟨hl, hfp⟩ := Prod.mk.inj h
          obtain ⟨hs, hany⟩ := ih cs _ (Prod.ext rfl hfp)
          subst hl
          refine ⟨congrArg (c :: ·) hs, fun t' => ?_⟩
          rw [List.cons_append, line, if_neg hc, hany t']
  unfold fgets at h
  obtain ⟨hl, hfp⟩ := Prod.mk.inj h
  split at hl
  · cases hl
  · rename_i hne
    obtain ⟨hs, hany⟩ := hline (size - 1) fp.rest _ (Prod.ext (Option.some.inj hl) hfp)
    refine ⟨hs, fun t' => ?_⟩
    unfold fgets
    simp only [Stream.ofText, hany t']
    rw [Option.some.inj hl] at hne
    rw [if_neg hne]

theorem skipToTag_step {buf l : List Char} {fp fp' : Stream} (heof : fp.eof = false)
    (h : fgets pgnBufsize fp = (some l, fp')) :
    skipToTag buf fp = if l.head? = some '[' then .ok (l, fp') else skipToTag l fp' := by
  rw [skipToTag, if_neg (by simp [heof])]
  split
  · rename_i h'
    rw [h] at h'
    cases h'
  · rename_i h'
    rw [h] at h'
    cases h'
    rfl

theorem skipToTag_end {buf : List Char} {fp fp' : Stream} (heof : fp.eof = false)
    (h : fgets pgnBufsize fp = (none, fp')) : skipToTag buf fp = .error fp' := by
  rw [skipToTag, if_neg (by simp [heof])]
  split
  · rename_i h'
    rw [h] at h'
    cases h'
    rfl
  · rename_i h'
    rw [h] at h'
    cases h'

theorem skipToTag_eof {buf : List Char} {fp : Stream} (heof : fp.eof = true) :
    skipToTag buf fp = .ok (buf, fp) := by
  rw [skipToTag, if_pos heof]

theorem readTags_eof {tags : List Char → List Char} {buf : List Char} {fp : Stream}
    (heof : fp.eof = true) : readTags tags buf fp = .ok (tags, fp) := by
  rw [readTags, if_pos heof]

theorem readTags_unparsable {tags : List Char → List Char} {buf : List Char} {fp : Stream}
    (heof : fp.eof = false) (hbuf : buf.head? = some '[') (htag : readTag buf = none) :
    readTags tags buf fp = .error fp := by
  rw [readTags, if_neg (by simp [heof]), if_neg (by simp [hbuf]), htag]

theorem readTags_end {tags : List Char → List Char} {buf : List Char} {fp fp' : Stream}
    {tv : List Char × List Char} (heof : fp.eof = false) (hbuf : buf.head? = some '[')
    (htag : readTag buf = some tv) (h : fgets pgnBufsize fp = (none, fp')) :
    readTags tags buf fp = .error fp' := by
  rw [readTags, if_neg (by simp [heof]), if_neg (by simp [hbuf]), htag]
  dsimp only
  split
  · rename_i h'
    rw [h] at h'
    cases h'
    rfl
  · rename_i h'
    rw [h] at h'
    cases h'

/-- A stream that is not at its end is a text. -/
theorem eq_ofText {fp : Stream} (h : fp.eof = false) : fp = .ofText fp.rest := by
  obtain ⟨rest, eof⟩ := fp
  cases h
  rfl

/-- The lines up to the first tag are dropped whatever follows them. -/
theorem skipToTag_ahead {buf l s t : List Char} (h : skipToTag buf (.ofText s) = .ok (l, .ofText t)) :
    ∃ head, s = head ++ t ∧ ∀ t', skipToTag buf (.ofText (head ++ t')) = .ok (l, .ofText t') := by
  induction hn : s.length using Nat.strong_induction_on generalizing buf s with
  | _ n ih =>
    obtain ⟨l', fp, hl⟩ : ∃ l' fp, fgets pgnBufsize (.ofText s) = (l', fp) := ⟨_, _, rfl⟩
    cases l' with
    | none =>
      rw [skipToTag_end rfl hl] at h
      cases h
    | some l' =>
      rw [skipToTag_step rfl hl] at h
      have heof : fp.eof = false := by
        by_contra he
        have he := Bool.eq_true_of_not_eq_false he
        split at h
        · cases h
          cases he
        · rw [skipToTag_eof he] at h
          cases h
          cases he
      rw [eq_ofText heof] at h hl
      obtain ⟨hs, hany⟩ := fgets_ahead hl
      have hs : s = l' ++ fp.rest := hs
      by_cases hb : l'.head? = some '['
      · rw [if_pos hb] at h
        cases h
        exact ⟨l, hs, fun t' => by rw [skipToTag_step rfl (hany t'), if_pos hb]⟩
      · rw [if_neg hb] at h
        have hlt := fgets_rest_lt hl
        obtain ⟨head, hrest, hmore⟩ := ih fp.rest.length (hn ▸ hlt) h rfl
        refine ⟨l' ++ head, by rw [hs, hrest, List.append_assoc], fun t' => ?_⟩
        rw [List.append_assoc, skipToTag_step rfl (hany _), if_neg hb, hmore]

/-- The tags are read whatever follows them. -/
theorem readTags_ahead {tags tags' : List Char → List Char} {buf s t : List Char}
    (h : readTags tags buf (.ofText s) = .ok (tags', .ofText t)) :
    ∃ head, s = head ++ t ∧
      ∀ t', readTags tags buf (.ofText (head ++ t')) = .ok (tags', .ofText t') := by
  induction hn : s.length using Nat.strong_induction_on generalizing tags buf s with
  | _ n ih =>
    by_cases hb : buf.head? = some '['
    · obtain ⟨tv, htv⟩ : ∃ tv, readTag buf = tv := ⟨_, rfl⟩
      obtain ⟨l, fp, hl⟩ : ∃ l fp, fgets pgnBufsize (.ofText s) = (l, fp) := ⟨_, _, rfl⟩
      obtain ⟨tag, val, l, rfl, rfl⟩ : ∃ tag val l', tv = some (tag, val) ∧ l = some l' := by
        cases tv with
        | none =>
          rw [readTags_unparsable rfl hb htv] at h
          cases h
        | some tv =>
          cases l with
          | none =>
            rw [readTags_end rfl hb htv hl] at h
            cases h
          | some l => exact ⟨tv.1, tv.2, l, rfl, rfl⟩
      rw [readTags_step rfl hb htv hl] at h
      have heof : fp.eof = false := by
        by_contra he
        have he := Bool.eq_true_of_not_eq_false he
        rw [readTags_eof he] at h
        cases h
        cases he
      rw [eq_ofText heof] at h hl
      obtain ⟨hs, hany⟩ := fgets_ahead hl
      have hs : s = l ++ fp.rest := hs
      have hlt := fgets_rest_lt hl
      obtain ⟨head, hrest, hmore⟩ := ih fp.rest.length (hn ▸ hlt) h rfl
      refine ⟨l ++ head, by rw [hs, hrest, List.append_assoc], fun t' => ?_⟩
      rw [List.append_assoc, readTags_step rfl hb htv (hany _), hmore]
    · rw [readTags_stop hb] at h
      cases h
      exact ⟨[], rfl, fun t' => readTags_stop hb⟩

section Files

variable {Brd Mov : Type} [PgnBoard Brd Mov]

/-- **Where a move is read there is a head.** -/
theorem exists_heads {s : List Char} (h : (parse (.ofText s) : Parsed Brd Mov).pgn.moves ≠ []) :
    ∃ head t, ∃ opening : Brd, s = head ++ t ∧ Heads head opening := by
  unfold parse at h
  cases hskip : skipToTag [] (.ofText s) with
  | error fp =>
    rw [hskip] at h
    exact absurd rfl h
  | ok r =>
    obtain ⟨buf, fp⟩ := r
    rw [hskip] at h
    cases htags : readTags (fun _ => []) buf fp with
    | error fp' =>
      simp only [htags] at h
      exact absurd rfl h
    | ok r =>
      obtain ⟨tags, fp'⟩ := r
      cases hopening : (readOpening tags : Brd × Bool) with
      | mk opening accepted =>
        simp only [htags, hopening] at h
        cases accepted with
        | false => exact absurd rfl h
        | true =>
          have heof' : fp'.eof = false := by
            by_contra he
            have he := Bool.eq_true_of_not_eq_false he
            rw [if_pos rfl, readMoves, dif_pos he] at h
            exact h rfl
          have heof : fp.eof = false := by
            by_contra he
            have he := Bool.eq_true_of_not_eq_false he
            rw [readTags_eof he] at htags
            cases htags
            rw [he] at heof'
            cases heof'
          rw [eq_ofText heof] at hskip htags
          rw [eq_ofText heof'] at htags
          obtain ⟨h1, hs, hany1⟩ := skipToTag_ahead hskip
          obtain ⟨h2, hfp, hany2⟩ := readTags_ahead htags
          refine ⟨h1 ++ h2, fp'.rest, opening, ?_, fun t => ?_⟩
          · rw [hs, hfp, List.append_assoc]
          · refine ⟨buf, .ofText (h2 ++ t), tags, ?_, hany2 t, hopening⟩
            rw [List.append_assoc]
            exact hany1 (h2 ++ t)

/-! ## All games of a file -/

/-- `parse_all(fp)`, for so many rounds of its loop. -/
def parseAll : Nat → Stream → Option (List (Pgn Brd Mov))
  | 0, _ => none
  | n + 1, fp =>
    if fp.eof then
      let r : Parsed Brd Mov := parse fp
      if r.ok then (parseAll n r.fp).map (r.pgn :: ·) else some []
    else some []

/-- `parse_all` returns, and these are the games. -/
def ParsesAll (s : List Char) (games : List (Pgn Brd Mov)) : Prop :=
  ∃ n, parseAll n (.ofText s) = some games

/-- A file that was just opened is not at its end. -/
theorem parsesAll_iff {s : List Char} {games : List (Pgn Brd Mov)} :
    ParsesAll s games ↔ games = [] := by
  constructor
  · rintro ⟨n, hn⟩
    cases n with
    | zero => cases hn
    | succ n => exact (Option.some.inj hn).symm
  · rintro rfl
    exact ⟨1, rfl⟩

end Files

/-- **The games of a file are read exactly if there are none.** -/
theorem parseAll_written_iff [Build] (gs : List Game) :
    ParsesAll (gs.flatMap Game.writePgn)
        (gs.map fun g => (parse (.ofText g.writePgn) : Parsed Board Move).pgn) ↔ gs = [] := by
  rw [parsesAll_iff, List.map_eq_nil_iff]

/-- The game of no moves is written and read back, but not found in its file. -/
theorem parseAll_misses : ∃ b, @Board.parseFen sampleBuild openingFen = .accepted b ∧
    let _ := sampleBuild
    let gs := [Game.construct b .untimed .untimed]
    (∀ g ∈ gs, (parse (.ofText g.writePgn) : Parsed Board Move).ok = true) ∧
      ¬ ParsesAll (gs.flatMap Game.writePgn)
        (gs.map fun g => (parse (.ofText g.writePgn) : Parsed Board Move).pgn) := by
  let _ := sampleBuild
  obtain ⟨b, hb, hsim⟩ := parseFen_opening
  have hsane : Sane b.abs := hsim.abs_eq ▸ sane_opening
  have hwritten : (Game.construct b .untimed .untimed).ResultOk := Or.inr ⟨rfl, rfl⟩
  have hread := (hwritten.pgnInverse_iff hb ⟨hsane.rights, hsane.ep⟩ rfl).mpr
    ⟨hsim.consistent.oneMan, fun e he => by cases he⟩
  refine ⟨b, hb, List.forall_mem_singleton.mpr hread.1, fun hall => ?_⟩
  cases parsesAll_iff.mp hall

end Pgn

/-! ## Loading a game -/

namespace Game

section Load

variable [Build]

/-- The moves with what the `i`-th call of `make_move` sees of the system time. -/
def timed (moves : List Move) (now : Nat → Nat → Realtime) : List (Move × (Nat → Realtime)) :=
  moves.mapIdx fun i mov => (mov, now i)

/-- The calls that make these moves. -/
def playOps (moves : List Move) (now : Nat → Nat → Realtime) : List GameOp :=
  (timed moves now).map fun m => .makeMove m.1 0 m.2

theorem ofPgn_eq_run (opening : Board) (wclock bclock : Clock) (moves : List Move)
    (now : Nat → Nat → Realtime) : ofPgn opening wclock bclock (timed moves now) =
      run step (construct opening wclock bclock) (playOps moves now) := by
  have hrun : ∀ (g : Game) (ms : List (Move × (Nat → Realtime))),
      g.makeMoves (ms.map fun m => ⟨m.1, 0, m.2⟩) =
        run step g (ms.map fun m => .makeMove m.1 0 m.2) := by
    intro g ms
    induction ms generalizing g with
    | nil => rfl
    | cons m ms ih => exact ih _
  exact hrun _ _

end Load

end Game

namespace Shell

section Load

variable [Build]

/-- `cmd_loadgame()`: whether it succeeds, and the game after it.  `none` is a file that cannot
be opened. -/
def cmdLoadgame (game : Game) (file : Option (List Char)) (now : Nat → Nat → Realtime) :
    Bool × Game :=
  match file with
  | none => (false, game)
  | some text =>
    let r : Pgn.Parsed Board Move := Pgn.parse (.ofText text)
    (true, .ofPgn r.pgn.opening .untimed .untimed (Game.timed r.pgn.moves now))

/-- The moves of a movetext up to the first that is not read. -/
def readableMoves (opening : Board) (movetext : List Char) : List Move :=
  (Pgn.readTexts opening (Pgn.moveTexts (Pgn.movetextWords movetext))).1

/-- The running game is the one that the readable part of the file tells, made at these times. -/
def AlreadyLoaded (game : Game) (text : List Char) (now : Nat → Nat → Realtime) : Prop :=
  ∃ head movetext, ∃ opening : Board, text = head ++ movetext ∧ Pgn.Heads head opening ∧
    readableMoves opening movetext ≠ [] ∧
    run Game.step (Game.construct opening .untimed .untimed)
      (Game.playOps (readableMoves opening movetext) now) = game

/-- **When a failed `loadgame` leaves the running game alone.** -/
theorem loadgame_keeps_iff {game : Game} (hrun : game.running = true) {text : List Char}
    (hfail : (Pgn.parse (.ofText text) : Pgn.Parsed Board Move).ok = false)
    (now : Nat → Nat → Realtime) :
    (cmdLoadgame game (some text) now).2 = game ↔ AlreadyLoaded game text now := by
  let pgn := (Pgn.parse (.ofText text) : Pgn.Parsed Board Move).pgn
  have hload : (cmdLoadgame game (some text) now).2 =
      run Game.step (Game.construct pgn.opening .untimed .untimed) (Game.playOps pgn.moves now) :=
    Game.ofPgn_eq_run _ _ _ _ _
  have hhead : ∀ {head movetext : List Char} {opening : Board}, text = head ++ movetext →
      Pgn.Heads head opening → (cmdLoadgame game (some text) now).2 =
        run Game.step (Game.construct opening .untimed .untimed)
          (Game.playOps (readableMoves opening movetext) now) := by
    rintro head movetext opening rfl hh
    have hpgn : pgn = ⟨opening, readableMoves opening movetext⟩ := (hh.parse movetext).1
    rw [hload, hpgn]
  constructor
  · intro h
    have hmoves : pgn.moves ≠ [] := by
      intro hnone
      rw [← h, hload, hnone] at hrun
      cases hrun
    obtain ⟨head, movetext, opening, htext, hh⟩ := Pgn.exists_heads hmoves
    refine ⟨head, movetext, opening, htext, hh, ?_, (hhead htext hh).symm.trans h⟩
    have hpgn : pgn.moves = readableMoves opening movetext := by
      show (Pgn.parse (.ofText text) : Pgn.Parsed Board Move).pgn.moves = _
      rw [htext, (hh.parse movetext).1]
      rfl
    rwa [hpgn] at hmoves
  · rintro ⟨head, movetext, opening, htext, hh, _, hgame⟩
    exact (hhead htext hh).trans hgame

end Load

/-- A file that breaks off after 1. e4 leaves a game behind; loading it again changes nothing. -/
theorem loadgame_again : ∃ b, @Board.parseFen sampleBuild openingFen = .accepted b ∧
    let _ := sampleBuild
    let text := Pgn.eventHead ++ "1. e4 e4 *".toList
    let game := (cmdLoadgame (Game.construct b .untimed .untimed) (some text) (fun _ _ => 0)).2
    game.running = true ∧ (Pgn.parse (.ofText text) : Pgn.Parsed Board Move).ok = false ∧
      (cmdLoadgame game (some text) (fun _ _ => 0)).2 = game := by
  let _ := sampleBuild
  obtain ⟨b, hb, hread⟩ := FenResult.holds_eq_true.mp (show (Board.parseFen openingFen).holds (fun b =>
    decide ((Pgn.readTexts b ["e4".toList, "e4".toList]).1.length = 1 ∧
      (Pgn.readTexts b ["e4".toList, "e4".toList]).2 = false ∧
      (Game.ofPgn b .untimed .untimed (Game.timed
        (Pgn.readTexts b ["e4".toList, "e4".toList]).1 fun _ _ => 0)).running = true)) = true by
      decide +kernel)
  obtain ⟨hone, hbad, hgame⟩ := of_decide_eq_true hread
  have hhead := Pgn.heads_eventHead hb
  have htexts : Pgn.moveTexts (Pgn.movetextWords "1. e4 e4 *".toList) =
      ["e4".toList, "e4".toList] := by decide
  have hmoves : readableMoves b "1. e4 e4 *".toList ≠ [] := by
    rw [readableMoves, htexts]
    exact List.ne_nil_of_length_pos (by omega)
  obtain ⟨hpgn, hok⟩ := hhead.parse "1. e4 e4 *".toList
  have hfail := hok.trans (htexts ▸ hbad)
  have hrunning : (cmdLoadgame (Game.construct b .untimed .untimed)
      (some (Pgn.eventHead ++ "1. e4 e4 *".toList)) (fun _ _ => 0)).2.running = true := by
    rw [cmdLoadgame, hpgn, htexts]
    exact hgame
  refine ⟨b, hb, hrunning, hfail, (loadgame_keeps_iff hrunning hfail _).mpr
    ⟨Pgn.eventHead, "1. e4 e4 *".toList, b, rfl, hhead, hmoves, ?_⟩⟩
  rw [cmdLoadgame, hpgn]
  exact (Game.ofPgn_eq_run _ _ _ _ _).symm

/-- A file whose first move is no move ends a game that is running. -/
theorem loadgame_replaces : ∃ b, @Board.parseFen sampleBuild openingFen = .accepted b ∧
    let _ := sampleBuild
    let game := (Game.construct b .untimed .untimed).start 0
    game.running = true ∧
      (Pgn.parse (.ofText (Pgn.eventHead ++ "1. \x7d *".toList)) : Pgn.Parsed Board Move).ok = false ∧
      (cmdLoadgame game (some (Pgn.eventHead ++ "1. \x7d *".toList)) (fun _ _ => 0)).2 ≠ game := by
  let _ := sampleBuild
  obtain ⟨b, hb, hbrace⟩ := FenResult.holds_eq_true.mp (show (Board.parseFen openingFen).holds
    (fun b => decide (b.parseMove1 ['}'] = .noMove)) = true by decide +kernel)
  have hparse : PgnBoard.parseMove1 b ['}'] = none := if_pos (of_decide_eq_true hbrace)
  have htexts : Pgn.moveTexts (Pgn.movetextWords "1. \x7d *".toList) = [['}']] := by decide
  obtain ⟨hpgn, hok⟩ := (Pgn.heads_eventHead hb).parse "1. \x7d *".toList
  rw [htexts, Pgn.readTexts, hparse] at hpgn hok
  refine ⟨b, hb, rfl, hok, fun h => ?_⟩
  have hstopped := congrArg Game.running h
  rw [cmdLoadgame, hpgn] at hstopped
  cases hstopped

end Shell

end HoiChess
