import HoiChess.Common.PgnRoundTrip
import HoiChess.Lib.Cutter

/-!
# Comments in movetext

The tokens of a movetext are the words of a machine that remembers how much room is left in
the buffer and whether it is within a comment (`tokenMachine`), so what `parse` makes of a
movetext is what the fast parser makes of its words (`readMoves_words`).  A comment that fits
the buffer is one word; of a longer one the rest is read as if it were movetext
(`parse_insertComment_iff`).
-/

namespace HoiChess

open Chess Stdio Cutter

namespace Pgn

/-! ## Movetext as words -/

/-- A character is stored; the buffer may be full then. -/
def store (room : Nat) (comment : Bool) (c : Char) : Cut (Nat × Bool) Char :=
  if room ≤ 1 then .last c else .keep c (room - 1, comment)

/-- Room in the buffer, and whether a comment is open. -/
def tokenMachine : Machine (Nat × Bool) Char Char where
  start := (pgnBufsize - 1, false)
  cut s c :=
    let c := readChar c
    if s.2 then if c = '}' then .last c else store s.1 true c
    else if c = '{' then store s.1 true c
    else if c = '.' then .last c
    else if c = ' ' then .drop
    else store s.1 false c

/-- The tokens of a movetext. -/
def movetextWords (s : List Char) : List (List Char) := tokenMachine.words s

/-- A token that is neither a move nor a result. -/
def Skipped (tok : List Char) : Prop :=
  tok = [] ∨ tok.getLast? = some '.' ∨ tok.head? = some '{' ∨ tok.head? = some '$'

instance : DecidablePred Skipped := fun _ => inferInstanceAs (Decidable (_ ∨ _))

/-- The texts of the moves before the first result. -/
def moveTexts : List (List Char) → List (List Char)
  | [] => []
  | w :: ws =>
    if Skipped (cstr w) then moveTexts ws
    else if cstr w ∈ resultTokens then []
    else cstr w :: moveTexts ws

/-- A result is among the tokens. -/
def HasResult (ws : List (List Char)) : Prop := ∃ w ∈ ws, cstr w ∈ resultTokens

instance : DecidablePred HasResult := fun ws =>
  inferInstanceAs (Decidable (∃ w ∈ ws, cstr w ∈ resultTokens))

theorem not_skipped_of_result {tok : List Char} (h : tok ∈ resultTokens) : ¬ Skipped tok := by
  revert tok
  decide

theorem moveTexts_append (ws ws' : List (List Char)) :
    moveTexts (ws ++ ws') = moveTexts ws ++ if HasResult ws then [] else moveTexts ws' := by
  induction ws with
  | nil => simp [moveTexts, HasResult]
  | cons w ws ih =>
    have hres : HasResult (w :: ws) ↔ cstr w ∈ resultTokens ∨ HasResult ws := by
      simp [HasResult]
    rw [List.cons_append, moveTexts, moveTexts]
    by_cases hskip : Skipped (cstr w)
    · have hno : cstr w ∉ resultTokens := fun h => not_skipped_of_result h hskip
      rw [if_pos hskip, if_pos hskip, ih]
      simp only [hres, hno, false_or]
    · rw [if_neg hskip, if_neg hskip]
      by_cases hr : cstr w ∈ resultTokens
      · rw [if_pos hr, if_pos hr, if_pos (hres.mpr (Or.inl hr))]
        rfl
      · rw [if_neg hr, if_neg hr, ih]
        simp only [hres, hr, false_or]
        rfl

theorem hasResult_append (ws ws' : List (List Char)) :
    HasResult (ws ++ ws') ↔ HasResult ws ∨ HasResult ws' := by
  simp only [HasResult, List.mem_append, or_and_right, exists_or]

/-- The loop of `get_movetext_token` cuts off the first word. -/
theorem tokenLoop_words (room : Nat) (comment : Bool) (s w : List Char) :
    (∃ v t, tokenLoop (room + 1) comment s = (v, ⟨t, false⟩) ∧
      tokenMachine.scan ⟨(room + 1, comment), w⟩ s =
        ((w ++ v) :: (tokenMachine.scan tokenMachine.fresh t).1,
          (tokenMachine.scan tokenMachine.fresh t).2)) ∨
    ∃ v st, tokenLoop (room + 1) comment s = (v, ⟨[], true⟩) ∧
      tokenMachine.scan ⟨(room + 1, comment), w⟩ s = ([], ⟨st, w ++ v⟩) := by
  induction s generalizing room comment w with
  | nil => exact Or.inr ⟨[], (room + 1, comment), rfl, by rw [List.append_nil]; rfl⟩
  | cons c s ih =>
    have hstore : ∀ cm d, tokenMachine.cut (room + 1, comment) c = store (room + 1) cm d →
        tokenLoop (room + 1) comment (c :: s) =
          (d :: (tokenLoop room cm s).1, (tokenLoop room cm s).2) →
        (∃ v t, tokenLoop (room + 1) comment (c :: s) = (v, ⟨t, false⟩) ∧
          tokenMachine.scan ⟨(room + 1, comment), w⟩ (c :: s) =
            ((w ++ v) :: (tokenMachine.scan tokenMachine.fresh t).1,
              (tokenMachine.scan tokenMachine.fresh t).2)) ∨
        ∃ v st, tokenLoop (room + 1) comment (c :: s) = (v, ⟨[], true⟩) ∧
          tokenMachine.scan ⟨(room + 1, comment), w⟩ (c :: s) = ([], ⟨st, w ++ v⟩) := by
      intro cm d hcut hloop
      cases room with
      | zero =>
        refine Or.inl ⟨[d], s, hloop, ?_⟩
        rw [Machine.scan, hcut]
        rfl
      | succ room =>
        have hscan : tokenMachine.scan ⟨(room + 1 + 1, comment), w⟩ (c :: s) =
            tokenMachine.scan ⟨(room + 1, cm), w ++ [d]⟩ s := by
          rw [Machine.scan, hcut, store, if_neg (by omega)]
          rfl
        rw [hloop, hscan]
        rcases ih room cm (w ++ [d]) with ⟨v, t, hv, hrest⟩ | ⟨v, st, hv, hrest⟩
        · exact Or.inl ⟨d :: v, t, by rw [hv], by rw [hrest]; simp⟩
        · exact Or.inr ⟨d :: v, st, by rw [hv], by rw [hrest]; simp⟩
    have hlast : ∀ d, tokenMachine.cut (room + 1, comment) c = .last d →
        tokenMachine.scan ⟨(room + 1, comment), w⟩ (c :: s) =
          ((w ++ [d]) :: (tokenMachine.scan tokenMachine.fresh s).1,
            (tokenMachine.scan tokenMachine.fresh s).2) := by
      intro d hd
      rw [Machine.scan, hd]
    have hcut : tokenMachine.cut (room + 1, comment) c =
        if comment then
          if readChar c = '}' then .last (readChar c) else store (room + 1) true (readChar c)
        else if readChar c = '{' then store (room + 1) true (readChar c)
        else if readChar c = '.' then .last (readChar c)
        else if readChar c = ' ' then .drop
        else store (room + 1) false (readChar c) := rfl
    have hloop : tokenLoop (room + 1) comment (c :: s) =
        if comment then
          if readChar c = '}' then ([readChar c], ⟨s, false⟩)
          else (readChar c :: (tokenLoop room true s).1, (tokenLoop room true s).2)
        else if readChar c = '{' then
          (readChar c :: (tokenLoop room true s).1, (tokenLoop room true s).2)
        else if readChar c = '.' then ([readChar c], ⟨s, false⟩)
        else if readChar c = ' ' then ([], ⟨s, false⟩)
        else (readChar c :: (tokenLoop room false s).1, (tokenLoop room false s).2) := by
      rw [tokenLoop]
    cases comment with
    | true =>
      by_cases hclose : readChar c = '}'
      · simp only [if_true, if_pos hclose] at hcut hloop
        exact Or.inl ⟨_, s, hloop, hlast _ hcut⟩
      · simp only [if_true, if_neg hclose] at hcut hloop
        exact hstore _ _ hcut hloop
    | false =>
      simp only [Bool.false_eq_true, if_false] at hcut hloop
      by_cases hopen : readChar c = '{'
      · simp only [if_pos hopen] at hcut hloop
        exact hstore _ _ hcut hloop
      by_cases hdot : readChar c = '.'
      · simp only [if_neg hopen, if_pos hdot] at hcut hloop
        exact Or.inl ⟨_, s, hloop, hlast _ hcut⟩
      by_cases hblank : readChar c = ' '
      · simp only [if_neg hopen, if_neg hdot, if_pos hblank] at hcut hloop
        refine Or.inl ⟨[], s, hloop, ?_⟩
        rw [Machine.scan, hcut, List.append_nil]
      · simp only [if_neg hopen, if_neg hdot, if_neg hblank] at hcut hloop
        exact hstore _ _ hcut hloop

theorem getMovetextToken_words (s : List Char) :
    (∃ v t, getMovetextToken ⟨s, false⟩ pgnBufsize = (v, ⟨t, false⟩) ∧
      movetextWords s = v :: movetextWords t) ∨
    ∃ v, getMovetextToken ⟨s, false⟩ pgnBufsize = (v, ⟨[], true⟩) ∧ movetextWords s = [v] := by
  have hwords : ∀ s, movetextWords s = (tokenMachine.scan ⟨(1022 + 1, false), []⟩ s).1 ++
      [(tokenMachine.scan ⟨(1022 + 1, false), []⟩ s).2.word] := fun _ => rfl
  rcases tokenLoop_words 1022 false s [] with ⟨v, t, hv, hs⟩ | ⟨v, st, hv, hs⟩
  · refine Or.inl ⟨v, t, hv, ?_⟩
    rw [hwords, hs]
    rfl
  · refine Or.inr ⟨v, hv, ?_⟩
    rw [hwords, hs]
    rfl

section Moves

variable {Brd Mov : Type} [PgnBoard Brd Mov]

/-- **A movetext is read as the texts of its moves**, one after the other up to the result. -/
theorem readMoves_words (board : Brd) (moves : List Mov) (s : List Char) :
    (readMoves board moves ⟨s, false⟩).moves =
        moves ++ (readTexts board (moveTexts (movetextWords s))).1 ∧
      (readMoves board moves ⟨s, false⟩).ok =
        (readTexts board (moveTexts (movetextWords s))).2 := by
  induction hn : s.length using Nat.strong_induction_on generalizing board moves s with
  | _ n ih =>
    obtain ⟨v, fp, ws, htok, hws, hrest⟩ : ∃ v fp ws,
        getMovetextToken ⟨s, false⟩ pgnBufsize = (v, fp) ∧ movetextWords s = v :: ws ∧
          ∀ (board : Brd) (moves : List Mov),
            (readMoves board moves fp).moves = moves ++ (readTexts board (moveTexts ws)).1 ∧
              (readMoves board moves fp).ok = (readTexts board (moveTexts ws)).2 := by
      rcases getMovetextToken_words s with ⟨v, t, hv, hws⟩ | ⟨v, hv, hws⟩
      · refine ⟨v, ⟨t, false⟩, _, hv, hws, fun board moves => ?_⟩
        have hlt : (Stream.mk t false).left < (Stream.mk s false).left := by
          have := getMovetextToken_left (show (Stream.mk s false).eof = false from rfl)
          rwa [hv] at this
        exact ih t.length (by simpa [Stream.left, ← hn] using hlt) board moves t rfl
      · refine ⟨v, ⟨[], true⟩, [], hv, hws, fun board moves => ?_⟩
        rw [readMoves, dif_pos rfl]
        simp [moveTexts, readTexts]
    rw [readMoves, dif_neg Bool.false_ne_true, hws, moveTexts]
    simp only [htok]
    by_cases hskip : Skipped (cstr v)
    · rw [if_pos hskip]
      by_cases h1 : cstr v = []
      · rw [if_pos h1]
        exact hrest board moves
      by_cases h2 : (cstr v).getLast? = some '.'
      · rw [if_neg h1, if_pos h2]
        exact hrest board moves
      by_cases h3 : (cstr v).head? = some '{'
      · rw [if_neg h1, if_neg h2, if_pos h3]
        exact hrest board moves
      · rw [if_neg h1, if_neg h2, if_neg h3,
          if_pos (((hskip.resolve_left h1).resolve_left h2).resolve_left h3)]
        exact hrest board moves
    · obtain ⟨h1, h2, h3, h4⟩ : cstr v ≠ [] ∧ (cstr v).getLast? ≠ some '.' ∧
          (cstr v).head? ≠ some '{' ∧ (cstr v).head? ≠ some '$' := by
        simpa [Skipped, not_or] using hskip
      rw [if_neg hskip, if_neg h1, if_neg h2, if_neg h3, if_neg h4]
      by_cases hr : cstr v ∈ resultTokens
      · simp [if_pos hr, readTexts]
      · rw [if_neg hr, if_neg hr, readTexts]
        cases PgnBoard.parseMove1 board (cstr v) with
        | none => simp
        | some mov =>
          obtain ⟨hm, hok⟩ := hrest (PgnBoard.makeMove board mov) (moves ++ [mov])
          exact ⟨by rw [hm]; simp, hok⟩

/-- Where all texts are read there is a move for each. -/
theorem readTexts_length {board : Brd} {texts : List (List Char)}
    (h : (readTexts board texts).2 = true) : (readTexts board texts).1.length = texts.length := by
  induction texts generalizing board with
  | nil => rfl
  | cons s ss ih =>
    rw [readTexts] at h ⊢
    cases hp : PgnBoard.parseMove1 board s with
    | none =>
      rw [hp] at h
      cases h
    | some mov =>
      rw [hp] at h
      exact congrArg (· + 1) (ih h)

end Moves

/-! ## Words around a comment -/

/-- A token ends where the first text ends: with its last character, or before a blank. -/
def BetweenTokens (s t : List Char) : Prop :=
  let h := (tokenMachine.scan tokenMachine.fresh s).2
  h = tokenMachine.fresh ∨ h.state.2 = false ∧ ∀ d ∈ t.head?, readChar d = ' '

/-- `{..}` with a blank before and after it. -/
def insertComment (s body t : List Char) : List Char := s ++ ' ' :: '{' :: (body ++ '}' :: ' ' :: t)

theorem cut_blank {st : Nat × Bool} (h : st.2 = false) {d : Char} (hd : readChar d = ' ') :
    tokenMachine.cut st d = .drop := by
  show (if st.2 then _ else _) = _
  rw [h, hd]
  rfl

/-- A blank outside of comments ends a token. -/
theorem words_blank {s : List Char} (t : List Char)
    (h : (tokenMachine.scan tokenMachine.fresh s).2.state.2 = false) {d : Char}
    (hd : readChar d = ' ') : movetextWords (s ++ d :: t) = movetextWords s ++ movetextWords t :=
  tokenMachine.words_append_drop t (cut_blank h hd)

theorem moveTexts_cons_nil (ws : List (List Char)) : moveTexts ([] :: ws) = moveTexts ws := by
  rw [moveTexts, if_pos (show Skipped (cstr []) from Or.inl rfl)]

/-- What `parse` sees of two texts with a token's end between them. -/
theorem BetweenTokens.moveTexts_append {s t : List Char} (h : BetweenTokens s t) :
    moveTexts (movetextWords (s ++ t)) = moveTexts (movetextWords s ++ movetextWords t) := by
  have hempty : moveTexts [[]] = [] := moveTexts_cons_nil []
  have hnone : ¬ HasResult [[]] := by decide
  rcases h with hfresh | ⟨hout, hblank⟩
  · have hws : movetextWords s = (tokenMachine.scan tokenMachine.fresh s).1 ++ [[]] := by
      show _ ++ _ = _
      rw [hfresh]
      rfl
    have hst : movetextWords (s ++ t) = (tokenMachine.scan tokenMachine.fresh s).1 ++
        movetextWords t := tokenMachine.words_append t hfresh
    rw [hws, hst, Pgn.moveTexts_append, List.append_assoc, Pgn.moveTexts_append,
      List.singleton_append, moveTexts_cons_nil]
  · cases t with
    | nil =>
      have hnil : movetextWords [] = [[]] := rfl
      rw [List.append_nil, Pgn.moveTexts_append, hnil, hempty, ite_self, List.append_nil]
    | cons d t =>
      have hd : readChar d = ' ' := hblank d rfl
      have hdt : movetextWords (d :: t) = [] :: movetextWords t := words_blank (s := []) t rfl hd
      rw [words_blank t hout hd, hdt, Pgn.moveTexts_append, Pgn.moveTexts_append,
        moveTexts_cons_nil]

theorem BetweenTokens.outside {s t : List Char} (h : BetweenTokens s t) :
    (tokenMachine.scan tokenMachine.fresh s).2.state.2 = false := by
  rcases h with hfresh | ⟨hout, _⟩
  · rw [hfresh]
    rfl
  · exact hout

theorem readChar_eq_close {c : Char} : readChar c = '}' ↔ c = '}' := by
  unfold readChar
  split
  · rename_i h
    rcases h with rfl | rfl <;> decide
  · exact Iff.rfl

/-- Within a comment everything is stored. -/
theorem scan_body {body w : List Char} {room : Nat} (hb : '}' ∉ body) (hroom : body.length < room) :
    tokenMachine.scan ⟨(room, true), w⟩ body =
      ([], ⟨(room - body.length, true), w ++ body.map readChar⟩) := by
  induction body generalizing room w with
  | nil => simp [Machine.scan]
  | cons c body ih =>
    obtain ⟨hc, hb⟩ := not_or.mp (fun h => hb (List.mem_cons.mpr h))
    have hlen : body.length + 1 < room := hroom
    have hcut : tokenMachine.cut (room, true) c = .keep (readChar c) (room - 1, true) := by
      show (if readChar c = '}' then _ else store room true (readChar c)) = _
      rw [if_neg (fun e => hc (readChar_eq_close.mp e).symm), store, if_neg (by omega)]
    rw [Machine.scan, hcut]
    dsimp only
    rw [ih hb (by omega)]
    simp [Nat.sub_sub, Nat.add_comm]

theorem scan_open (s : List Char) : tokenMachine.scan tokenMachine.fresh ('{' :: s) =
    tokenMachine.scan ⟨(1022, true), ['{']⟩ s := rfl

/-- **A comment that fits the buffer is one token.** -/
theorem words_short {body : List Char} (hb : '}' ∉ body) (hfits : body.length ≤ 1021)
    (t : List Char) : movetextWords ('{' :: (body ++ '}' :: ' ' :: t)) =
      ('{' :: (body.map readChar ++ ['}'])) :: [] :: movetextWords t := by
  have hclose : tokenMachine.cut (1022 - body.length, true) '}' = .last '}' := rfl
  have hscan : tokenMachine.scan tokenMachine.fresh ('{' :: (body ++ ['}'])) =
      ([('{' :: (body.map readChar ++ ['}']))], tokenMachine.fresh) := by
    rw [scan_open, Machine.scan_append, scan_body hb (by omega), Machine.scan, hclose]
    rfl
  have htext : '{' :: (body ++ '}' :: ' ' :: t) = '{' :: (body ++ ['}']) ++ ' ' :: t := by simp
  have hblank : movetextWords (' ' :: t) = [] :: movetextWords t := words_blank (s := []) t rfl rfl
  rw [htext, movetextWords, tokenMachine.words_append _ (by rw [hscan]), hscan,
    List.singleton_append]
  exact congrArg _ hblank

/-- After a closing brace no comment is open. -/
theorem scan_close (s : List Char) :
    (tokenMachine.scan tokenMachine.fresh (s ++ ['}'])).2.state.2 = false := by
  rw [Machine.scan_append]
  show (tokenMachine.scan (tokenMachine.scan tokenMachine.fresh s).2 ['}']).2.state.2 = false
  obtain ⟨⟨room, comment⟩, w⟩ := (tokenMachine.scan tokenMachine.fresh s).2
  cases comment with
  | true => rfl
  | false =>
    have hcut : tokenMachine.cut (room, false) '}' = store room false '}' := rfl
    by_cases hroom : room ≤ 1
    · rw [Machine.scan, hcut, store, if_pos hroom]
      rfl
    · rw [Machine.scan, hcut, store, if_neg hroom]
      rfl

/-- **Of a longer comment the rest is cut like movetext.** -/
theorem words_long {body : List Char} (hb : '}' ∉ body) (hlong : 1022 ≤ body.length)
    (t : List Char) : ∃ w, w.head? = some '{' ∧ movetextWords ('{' :: (body ++ '}' :: ' ' :: t)) =
      w :: (movetextWords (body.drop 1022 ++ ['}']) ++ movetextWords t) := by
  obtain ⟨d, hd⟩ : ∃ d, body.take 1022 = body.take 1021 ++ [d] :=
    ⟨body[1021], by rw [List.take_succ_eq_append_getElem (by omega)]⟩
  have hmem : ∀ c ∈ body.take 1022, c ≠ '}' := by
    rintro c hc rfl
    exact hb (List.mem_of_mem_take hc)
  have hfirst : '}' ∉ body.take 1021 := fun h => hmem '}' (by rw [hd]; simp [h]) rfl
  have hfull : tokenMachine.cut (1, true) d = .last (readChar d) := by
    show (if readChar d = '}' then _ else store 1 true (readChar d)) = _
    rw [if_neg (fun e => hmem d (by rw [hd]; simp) (readChar_eq_close.mp e))]
    rfl
  have hlen : (body.take 1021).length = 1021 := by
    rw [List.length_take]
    omega
  have hscan : tokenMachine.scan tokenMachine.fresh ('{' :: body.take 1022) =
      ([('{' :: ((body.take 1021).map readChar ++ [readChar d]))], tokenMachine.fresh) := by
    rw [hd, scan_open, Machine.scan_append, scan_body hfirst (by omega), hlen, Machine.scan]
    dsimp only
    rw [hfull]
    rfl
  have htext : '{' :: (body ++ '}' :: ' ' :: t) =
      '{' :: body.take 1022 ++ (body.drop 1022 ++ ['}'] ++ ' ' :: t) := by
    have := List.take_append_drop 1022 body
    rw [List.cons_append, List.append_assoc, ← List.append_assoc (body.take 1022), this]
    simp
  refine ⟨'{' :: ((body.take 1021).map readChar ++ [readChar d]), rfl, ?_⟩
  rw [htext, movetextWords, tokenMachine.words_append _ (by rw [hscan]), hscan,
    List.singleton_append]
  exact congrArg _ (words_blank t (scan_close _) rfl)

/-- What is left of a comment for which the buffer is too short. -/
def leftover (body : List Char) : List (List Char) := movetextWords (body.drop 1022 ++ ['}'])

section Insert

variable {s body t : List Char}

theorem words_insertComment (h : BetweenTokens s t) :
    movetextWords (insertComment s body t) =
      movetextWords s ++ movetextWords ('{' :: (body ++ '}' :: ' ' :: t)) :=
  words_blank _ h.outside rfl

theorem moveTexts_skipped {w : List Char} (h : w.head? = some '{') (ws : List (List Char)) :
    moveTexts (w :: ws) = moveTexts ws := by
  cases w with
  | nil => cases h
  | cons c w =>
    cases Option.some.inj h
    have hskip : Skipped (cstr ('{' :: w)) := Or.inr (Or.inr (Or.inl rfl))
    rw [moveTexts, if_pos hskip]

theorem moveTexts_insert_short (h : BetweenTokens s t) (hb : '}' ∉ body)
    (hfits : body.length ≤ 1021) :
    moveTexts (movetextWords (insertComment s body t)) =
      moveTexts (movetextWords s ++ movetextWords t) := by
  rw [words_insertComment h, words_short hb hfits t, Pgn.moveTexts_append, Pgn.moveTexts_append,
    moveTexts_skipped rfl, moveTexts_cons_nil]

theorem moveTexts_insert_long (h : BetweenTokens s t) (hb : '}' ∉ body)
    (hlong : 1022 ≤ body.length) :
    moveTexts (movetextWords (insertComment s body t)) =
      moveTexts (movetextWords s ++ leftover body) ++
        if HasResult (movetextWords s ++ leftover body) then [] else
          moveTexts (movetextWords t) := by
  obtain ⟨w, hw, hwords⟩ := words_long hb hlong t
  rw [words_insertComment h, hwords, Pgn.moveTexts_append, moveTexts_skipped hw,
    ← Pgn.moveTexts_append, ← List.append_assoc, Pgn.moveTexts_append]
  rfl

end Insert

/-! ## A file with a comment more -/

section Parse

variable {Brd Mov : Type} [PgnBoard Brd Mov]

/-- What stands before a movetext: tag lines that set up the board, and the line after them. -/
def Heads (head : List Char) (opening : Brd) : Prop :=
  ∀ t, ∃ buf fp tags, skipToTag [] (.ofText (head ++ t)) = .ok (buf, fp) ∧
    readTags (fun _ => []) buf fp = .ok (tags, .ofText t) ∧ readOpening tags = (opening, true)

/-- **What is read of a file** with such a head. -/
theorem Heads.parse {head : List Char} {opening : Brd} (h : Heads head opening) (t : List Char) :
    (parse (.ofText (head ++ t)) : Parsed Brd Mov).pgn = ⟨opening,
        (readTexts opening (moveTexts (movetextWords t))).1⟩ ∧
      (parse (.ofText (head ++ t)) : Parsed Brd Mov).ok =
        (readTexts opening (moveTexts (movetextWords t))).2 := by
  obtain ⟨buf, fp, tags, hskip, htags, hopening⟩ := h t
  obtain ⟨hmoves, hok⟩ := readMoves_words opening [] t
  unfold Pgn.parse
  simp only [hskip, htags, hopening, if_true]
  exact ⟨congrArg (Pgn.mk opening) hmoves, hok⟩

/-- The comment fits the buffer, or what does not fit holds no move and no result, or a result
ends the game there, and the moves up to it are read as the moves of the game. -/
def CommentHarmless (opening : Brd) (s body t : List Char) : Prop :=
  body.length ≤ 1021 ∨ (moveTexts (leftover body) = [] ∧ ¬ HasResult (leftover body)) ∨
    HasResult (movetextWords s ++ leftover body) ∧
      readTexts opening (moveTexts (movetextWords s ++ leftover body)) =
        readTexts opening (moveTexts (movetextWords s ++ movetextWords t))

/-- **When a comment does not change the game.** -/
theorem parse_insertComment_iff {head s body t : List Char} {opening : Brd}
    (hhead : Heads head opening) (hb : '}' ∉ body) (hbetween : BetweenTokens s t)
    (hacc : (parse (.ofText (head ++ (s ++ t))) : Parsed Brd Mov).ok = true) :
    ((parse (.ofText (head ++ insertComment s body t)) : Parsed Brd Mov).ok = true ∧
      (parse (.ofText (head ++ insertComment s body t)) : Parsed Brd Mov).pgn.moves =
        (parse (.ofText (head ++ (s ++ t))) : Parsed Brd Mov).pgn.moves) ↔
      CommentHarmless opening s body t := by
  rw [(hhead.parse _).2, hbetween.moveTexts_append] at hacc
  rw [(hhead.parse _).2, (hhead.parse _).1, (hhead.parse (s ++ t)).1, hbetween.moveTexts_append]
  have hsame : ∀ texts, (readTexts opening texts).2 = true ∧
      (readTexts opening texts).1 =
        (readTexts opening (moveTexts (movetextWords s ++ movetextWords t))).1 ↔
      readTexts opening texts = readTexts opening (moveTexts (movetextWords s ++ movetextWords t)) := by
    intro texts
    rw [Prod.ext_iff, hacc, and_comm]
  refine (hsame _).trans ?_
  by_cases hfits : body.length ≤ 1021
  · rw [moveTexts_insert_short hbetween hb hfits]
    exact iff_of_true rfl (Or.inl hfits)
  rw [moveTexts_insert_long hbetween hb (by omega)]
  by_cases hr : HasResult (movetextWords s ++ leftover body)
  · rw [if_pos hr, List.append_nil]
    constructor
    · exact fun h => Or.inr (Or.inr ⟨hr, h⟩)
    · rintro (h | ⟨_, hno⟩ | ⟨_, h⟩)
      · exact absurd h hfits
      · have hs : HasResult (movetextWords s) := ((hasResult_append _ _).mp hr).resolve_right hno
        rw [Pgn.moveTexts_append, if_pos hs, Pgn.moveTexts_append, if_pos hs]
      · exact h
  · obtain ⟨hs, hl⟩ := not_or.mp fun h => hr ((hasResult_append _ _).mpr h)
    have hold : moveTexts (movetextWords s ++ movetextWords t) =
        moveTexts (movetextWords s) ++ moveTexts (movetextWords t) := by
      rw [Pgn.moveTexts_append, if_neg hs]
    have hmore : moveTexts (movetextWords s ++ leftover body) =
        moveTexts (movetextWords s) ++ moveTexts (leftover body) := by
      rw [Pgn.moveTexts_append, if_neg hs]
    rw [if_neg hr, hmore]
    constructor
    · intro h
      have hnew : (readTexts opening _).1.length = _ := readTexts_length (h ▸ hacc)
      have hlen := readTexts_length hacc
      rw [h, hlen, hold] at hnew
      simp only [List.length_append] at hnew
      exact Or.inr (Or.inl ⟨List.length_eq_zero_iff.mp (by omega), hl⟩)
    · rintro (h | ⟨hnone, _⟩ | ⟨h, _⟩)
      · exact absurd h hfits
      · rw [hnone, List.append_nil, hold]
      · exact absurd h hr

end Parse

/-! ## Two comments -/

/-- One tag. -/
def eventHead : List Char := tagLine "Event".toList "unknown".toList ++ ['\n']

theorem heads_eventHead [Build] {b : Board} (hb : Board.parseFen openingFen = .accepted b) :
    Heads eventHead b := by
  have hok : TagOk ("Event".toList, "unknown".toList) := by
    refine ⟨by decide, by decide, by decide, by decide⟩
  have hnone : ∀ t ∈ ([] : List (List Char × List Char)), TagOk t := fun t h => by cases h
  intro t
  refine ⟨_, _, _, ?_, readTags_lines hnone hok _ t, ?_⟩
  · show skipToTag [] ⟨eventHead ++ t, false⟩ = _
    rw [eventHead, List.append_assoc]
    exact skipToTag_tagLine hok [] _
  · show PgnBoard.parseFen openingFen = (b, true)
    exact Game.pgnParseFen_accepted hb

/-- A comment of one letter between two moves is passed over. -/
theorem parse_short_comment : ∃ b, @Board.parseFen sampleBuild openingFen = .accepted b ∧
    let _ := sampleBuild
    let r : Parsed Board Move :=
      parse (.ofText (eventHead ++ insertComment "1. e4".toList ['a'] " e5 *".toList))
    r.ok = true ∧ r.pgn.moves.length = 2 ∧
      r.pgn.moves = (parse (.ofText (eventHead ++ ("1. e4".toList ++ " e5 *".toList))) :
        Parsed Board Move).pgn.moves := by
  let _ := sampleBuild
  obtain ⟨b, hb, hread⟩ := FenResult.holds_eq_true.mp (show (Board.parseFen openingFen).holds (fun b =>
    decide ((readTexts b ["e4".toList, "e5".toList]).1.length = 2 ∧
      (readTexts b ["e4".toList, "e5".toList]).2 = true)) = true by decide +kernel)
  obtain ⟨htwo, hok⟩ := of_decide_eq_true hread
  have hhead := heads_eventHead hb
  have htexts : moveTexts (movetextWords ("1. e4".toList ++ " e5 *".toList)) =
      ["e4".toList, "e5".toList] := by decide
  have hplain : (parse (.ofText (eventHead ++ ("1. e4".toList ++ " e5 *".toList))) :
      Parsed Board Move).ok = true := by
    rw [(hhead.parse _).2, htexts]
    exact hok
  have hbetween : BetweenTokens "1. e4".toList " e5 *".toList :=
    Or.inr ⟨rfl, fun d hd => Option.some.inj hd ▸ rfl⟩
  obtain ⟨haccepted, hmoves⟩ := (parse_insertComment_iff hhead (by decide) hbetween hplain).mpr
    (Or.inl (by decide : (['a'] : List Char).length ≤ 1021))
  refine ⟨b, hb, haccepted, ?_, hmoves⟩
  rw [hmoves, (hhead.parse _).1, htexts]
  exact htwo

/-- Of a comment of 1024 characters the closing brace is read as a move. -/
theorem parse_long_comment : ∃ b, @Board.parseFen sampleBuild openingFen = .accepted b ∧
    let _ := sampleBuild
    '}' ∉ List.replicate 1022 'a' ∧ BetweenTokens "1.".toList " *".toList ∧
      (parse (.ofText (eventHead ++ ("1.".toList ++ " *".toList))) : Parsed Board Move).ok = true ∧
      (parse (.ofText (eventHead ++
        insertComment "1.".toList (List.replicate 1022 'a') " *".toList)) :
          Parsed Board Move).ok = false := by
  let _ := sampleBuild
  obtain ⟨b, hb, hbrace⟩ := FenResult.holds_eq_true.mp (show (Board.parseFen openingFen).holds
    (fun b => decide (b.parseMove1 ['}'] = .noMove)) = true by decide +kernel)
  have hhead := heads_eventHead hb
  have hbetween : BetweenTokens "1.".toList " *".toList := Or.inl rfl
  have hb' : '}' ∉ List.replicate 1022 'a' := fun h => by cases List.eq_of_mem_replicate h
  have hold : moveTexts (movetextWords ("1.".toList ++ " *".toList)) = [] := by decide
  have hleft : leftover (List.replicate 1022 'a') = [['}']] := by
    rw [leftover, List.drop_replicate]
    decide
  have hnew : moveTexts (movetextWords (insertComment "1.".toList (List.replicate 1022 'a')
      " *".toList)) = [['}']] := by
    rw [moveTexts_insert_long hbetween hb' List.length_replicate.ge, hleft]
    decide
  refine ⟨b, hb, hb', hbetween, ?_, ?_⟩
  · rw [(hhead.parse _).2, hold]
    rfl
  · have hparse : PgnBoard.parseMove1 b ['}'] = none := if_pos (of_decide_eq_true hbrace)
    rw [(hhead.parse _).2, hnew, readTexts, hparse]

end Pgn

end HoiChess
