import HoiChess.Chess.ParseMove
import HoiChess.Chess.San

/-!
# Reading what was printed

`scanText` reads what `san` and `str` print as what it was printed from, whatever mark
for check follows (`scanText_chars`, `scanText_coordinate`); only a pawn capture without
its mark is not understood.  So the text of a move in SAN says all that was put into it
(`SanText.chars_injective`).
-/

namespace HoiChess.Chess

open Rules

/-! ## Letters and digits -/

@[simp] theorem fileChar_fileLetter (f : Fin 8) : fileChar (fileLetter f) = some f := by
  revert f
  decide

@[simp] theorem rankChar_rankLetter (r : Fin 8) : rankChar (rankLetter r) = some r := by
  revert r
  decide

@[simp] theorem rankChar_fileLetter (f : Fin 8) : rankChar (fileLetter f) = none := by
  revert f
  decide

@[simp] theorem fileChar_rankLetter (r : Fin 8) : fileChar (rankLetter r) = none := by
  revert r
  decide

@[simp] theorem fileChar_pieceLetter (p : Piece) : fileChar (pieceLetter p) = none := by
  cases p <;> decide

theorem pieceChar_pieceLetter {p : Piece} (h : p ≠ .pawn) : pieceChar (pieceLetter p) = some p := by
  cases p <;> first | rfl | exact absurd rfl h

theorem promoUpper_pieceLetter {q : Piece} (h : q ∈ promotionPieces) :
    promoUpper (pieceLetter q) = some q := by
  revert q
  decide

theorem promoLower_toLower {q : Piece} (h : q ∈ promotionPieces) :
    promoLower (pieceLetter q).toLower = some q := by
  revert q
  decide

theorem pieceLetter_injective : Function.Injective pieceLetter := by
  intro p q h
  cases p <;> cases q <;> first | rfl | exact absurd h (by decide)

theorem fileLetter_ne (f : Fin 8) : fileLetter f ≠ 'x' ∧ fileLetter f ≠ 'O' := by
  revert f
  decide

theorem rankLetter_ne (r : Fin 8) : rankLetter r ≠ 'x' := by
  revert r
  decide

theorem pieceLetter_ne (p : Piece) : pieceLetter p ≠ 'O' := by
  cases p <;> decide

/-! ## What may follow a move -/

/-- Nothing, or the mark for check or mate. -/
def checkMarks : List (List Char) := [[], ['+'], ['#']]

theorem sanCheck_mem [Build] (mov : Move) (b : Board) (nonstd : Nat) :
    mov.sanCheck b nonstd ∈ checkMarks := by
  unfold Move.sanCheck
  split
  · decide
  split
  · split <;> decide
  · decide

section Marks

variable {c : List Char} (hc : c ∈ checkMarks)

include hc

theorem mark_head : c.getD 0 ' ' ≠ 'x' ∧ c.getD 0 ' ' ≠ '=' ∧ fileChar (c.getD 0 ' ') = none ∧
    rankChar (c.getD 0 ' ') = none := by
  have h : c.getD 0 ' ' = '+' ∨ c.getD 0 ' ' = '#' ∨ c.getD 0 ' ' = ' ' := by
    revert c
    decide
  rcases h with h | h | h <;> rw [h] <;> decide

/-- After the destination of a pawn move the new piece is read, or nothing. -/
theorem scanSuffix_promoChars (s : List Char) (promo : Option Piece) :
    scanSuffix (s ++ (promoChars promo ++ c)) s.length = promo.map pieceLetter := by
  unfold scanSuffix
  cases promo with
  | none =>
    have h : (s ++ c).getD s.length ' ' ≠ '=' := by
      have := (mark_head hc).2.1
      rwa [List.getD_eq_getElem?_getD, List.getElem?_append_right le_rfl, Nat.sub_self,
        ← List.getD_eq_getElem?_getD]
    exact if_neg h
  | some q => simp [promoChars, List.getD_eq_getElem?_getD]

theorem fileChar_promoChars (promo : Option Piece) :
    fileChar ((promoChars promo ++ c).getD 0 ' ') = none := by
  cases promo with
  | none => exact (mark_head hc).2.2.1
  | some q =>
    show fileChar '=' = none
    decide

end Marks

/-! ## Squares and coordinates -/

theorem scanSquare_squareStr (s t : List Char) (sq : Square) :
    scanSquare (s ++ squareStr sq ++ t) s.length = some sq := by
  unfold scanSquare squareStr
  simp [List.getD_eq_getElem?_getD]

theorem scanSquare_none {s : List Char} {i : Nat}
    (h : fileChar (s.getD i ' ') = none ∨ rankChar (s.getD (i + 1) ' ') = none) :
    scanSquare s i = none := by
  unfold scanSquare
  rcases h with h | h
  · rw [h]
    rfl
  · rw [h]
    cases fileChar (s.getD i ' ') <;> rfl

theorem scanCoordinate_none {s : List Char} (h : scanSquare s 0 = none ∨ scanSquare s 2 = none) :
    scanCoordinate s = none := by
  unfold scanCoordinate
  rcases h with h | h
  · rw [h]
    rfl
  · rw [h]
    cases scanSquare s 0 <;> rfl

/-- A text that is not castling. -/
theorem scanText_of_ne {a : Char} {s : List Char} (h : a ≠ 'O') :
    scanText (a :: s) =
      match scanCoordinate (a :: s) with
      | some t => t
      | none =>
        match fileChar a with
        | some f => scanPawn f (a :: s)
        | none =>
          match pieceChar a with
          | some p => scanPiece p s
          | none => .invalid := by
  unfold scanText
  rw [if_neg (by simp [h]), if_neg (by simp [h])]
  rfl

/-- A text that begins with a file. -/
theorem scanText_file {f : Fin 8} {s : List Char} (h : scanCoordinate (fileLetter f :: s) = none) :
    scanText (fileLetter f :: s) = scanPawn f (fileLetter f :: s) := by
  rw [scanText_of_ne (fileLetter_ne f).2, h, fileChar_fileLetter]

theorem scanPawn_capture {f : Fin 8} {a : Char} {s : List Char} {dst : Square}
    (h : scanSquare (a :: 'x' :: s) 2 = some dst) :
    scanPawn f (a :: 'x' :: s) = .pawnCapture f dst (scanSuffix (a :: 'x' :: s) 4) := by
  rw [scanPawn, if_pos (by rfl), h]

theorem scanPawn_push {f r : Fin 8} {a b : Char} {s : List Char} (hb : b ≠ 'x') (hr : rankChar b = some r) :
    scanPawn f (a :: b :: s) = .pawnPush (mkSquare r f) (scanSuffix (a :: b :: s) 2) := by
  rw [scanPawn, if_neg (by simpa using hb)]
  simp only [List.getD_cons_succ, List.getD_cons_zero, hr]

theorem scanPawn_invalid {f : Fin 8} {a b : Char} {s : List Char} (hb : b ≠ 'x') (hr : rankChar b = none) :
    scanPawn f (a :: b :: s) = .invalid := by
  rw [scanPawn, if_neg (by simpa using hb)]
  simp only [List.getD_cons_succ, List.getD_cons_zero, hr]

/-- **Coordinate notation is read back.** -/
theorem scanText_coordinate (src dst : Square) (suffix : Option Char) :
    scanText (squareStr src ++ squareStr dst ++ suffix.toList) = .coordinate src dst suffix := by
  have hsrc : scanSquare (squareStr src ++ squareStr dst ++ suffix.toList) 0 = some src := by
    rw [List.append_assoc]
    exact scanSquare_squareStr [] _ src
  have hdst : scanSquare (squareStr src ++ squareStr dst ++ suffix.toList) 2 = some dst :=
    scanSquare_squareStr (squareStr src) _ dst
  have hcoord : scanCoordinate (squareStr src ++ squareStr dst ++ suffix.toList) =
      some (.coordinate src dst suffix) := by
    unfold scanCoordinate
    rw [hsrc, hdst]
    cases suffix <;> rfl
  show scanText (fileLetter (filIdx src) ::
    (rankLetter (rnkIdx src) :: squareStr dst ++ suffix.toList)) = _
  rw [scanText_of_ne (fileLetter_ne _).2]
  show (match scanCoordinate (squareStr src ++ squareStr dst ++ suffix.toList) with
    | some t => t
    | none => _) = _
  rw [hcoord]

/-! ## SAN -/

/-- What `scanText` makes of a move in SAN. -/
def SanText.read : SanText → MoveText
  | castle long => if long then .castleLong else .castleShort
  | pawn (some f) true dst promo => .pawnCapture f dst (promo.map pieceLetter)
  | pawn none false dst promo => .pawnPush dst (promo.map pieceLetter)
  | pawn _ _ _ _ => .invalid
  | piece p f r capture dst => .piece p f r capture dst

/-- The forms that occur: a pawn that captures says its file. -/
def SanText.Regular : SanText → Prop
  | castle _ => True
  | pawn f capture _ _ => capture = true → f.isSome
  | piece p _ _ _ _ => p ≠ .pawn

section Coord

variable (s : List Char) (f r : Fin 8)

@[simp] theorem scanCoord_file : scanCoord fileChar (fileLetter f :: s) = (some f, s) := by
  rw [scanCoord, List.getD_cons_zero, fileChar_fileLetter]
  rfl

@[simp] theorem scanCoord_rank : scanCoord rankChar (rankLetter r :: s) = (some r, s) := by
  rw [scanCoord, List.getD_cons_zero, rankChar_rankLetter]
  rfl

theorem scanCoord_none {coord : Char → Option (Fin 8)} {s : List Char}
    (h : coord (s.getD 0 ' ') = none) : scanCoord coord s = (none, s) := by
  rw [scanCoord, h]

@[simp] theorem scanCoord_file_rankLetter :
    scanCoord fileChar (rankLetter r :: s) = (none, rankLetter r :: s) :=
  scanCoord_none (fileChar_rankLetter r)

@[simp] theorem scanCoord_rank_fileLetter :
    scanCoord rankChar (fileLetter f :: s) = (none, fileLetter f :: s) :=
  scanCoord_none (rankChar_fileLetter f)

@[simp] theorem scanCoord_file_x : scanCoord fileChar ('x' :: s) = (none, 'x' :: s) :=
  scanCoord_none (by rw [List.getD_cons_zero]; decide)

@[simp] theorem scanCoord_rank_x : scanCoord rankChar ('x' :: s) = (none, 'x' :: s) :=
  scanCoord_none (by rw [List.getD_cons_zero]; decide)

end Coord

section Read

variable {c : List Char} (hc : c ∈ checkMarks)

include hc

/-- The parts of the origin are read first and turn out to be the destination where nothing
follows them. -/
theorem scanPiece_chars (p : Piece) (f r : Option (Fin 8)) (capture : Bool) (dst : Square) :
    scanPiece p ((f.map fileLetter).toList ++ (r.map rankLetter).toList ++
      (if capture then ['x'] else []) ++ squareStr dst ++ c) = .piece p f r capture dst := by
  obtain ⟨hx, _, hf, hr⟩ := mark_head hc
  have hcf := scanCoord_none hf
  have hcr := scanCoord_none hr
  unfold scanPiece squareStr
  cases f with
  | none =>
    cases r with
    | none =>
      cases capture with
      | false => simp [-List.getD_eq_getElem?_getD, hx, hcf, hcr]
      | true => simp [-List.getD_eq_getElem?_getD, List.getD_cons_zero]
    | some r =>
      cases capture <;> simp [-List.getD_eq_getElem?_getD, List.getD_cons_zero, fileLetter_ne]
  | some f =>
    cases r <;> cases capture <;>
      simp [-List.getD_eq_getElem?_getD, List.getD_cons_zero, fileLetter_ne]

theorem scanText_pieceChars {p : Piece} (hp : p ≠ .pawn) (f r : Option (Fin 8)) (capture : Bool)
    (dst : Square) :
    scanText ((SanText.piece p f r capture dst).chars ++ c) = .piece p f r capture dst := by
  have hcoord : ∀ s, scanCoordinate (pieceLetter p :: s) = none := fun s =>
    scanCoordinate_none (Or.inl (scanSquare_none (Or.inl (fileChar_pieceLetter p))))
  show scanText (pieceLetter p :: ((f.map fileLetter).toList ++ (r.map rankLetter).toList ++
      (if capture then ['x'] else []) ++ squareStr dst ++ c)) = _
  rw [scanText_of_ne (pieceLetter_ne p), hcoord, fileChar_pieceLetter, pieceChar_pieceLetter hp]
  exact scanPiece_chars hc p f r capture dst

theorem scanText_capture (f : Fin 8) (dst : Square) (promo : Option Piece) :
    scanText ((SanText.pawn (some f) true dst promo).chars ++ c) =
      .pawnCapture f dst (promo.map pieceLetter) := by
  have hx : rankChar 'x' = none := by decide
  have hcoord : ∀ s, scanCoordinate (fileLetter f :: 'x' :: s) = none := fun s =>
    scanCoordinate_none (Or.inl (scanSquare_none (Or.inr hx)))
  have hdst : ∀ t, scanSquare (fileLetter f :: 'x' :: (squareStr dst ++ t)) 2 = some dst :=
    fun t => scanSquare_squareStr [fileLetter f, 'x'] t dst
  rw [SanText.chars, List.append_assoc]
  show scanText (fileLetter f :: 'x' :: (squareStr dst ++ (promoChars promo ++ c))) = _
  rw [scanText_file (hcoord _), scanPawn_capture (hdst _)]
  exact congrArg _ (scanSuffix_promoChars hc ([fileLetter f, 'x'] ++ squareStr dst) promo)

theorem scanText_push (dst : Square) (promo : Option Piece) :
    scanText ((SanText.pawn none false dst promo).chars ++ c) =
      .pawnPush dst (promo.map pieceLetter) := by
  have hcoord : scanCoordinate (fileLetter (filIdx dst) :: rankLetter (rnkIdx dst) ::
      (promoChars promo ++ c)) = none :=
    scanCoordinate_none (Or.inr (scanSquare_none (Or.inl (fileChar_promoChars hc promo))))
  rw [SanText.chars, List.append_assoc]
  show scanText (fileLetter (filIdx dst) :: rankLetter (rnkIdx dst) :: (promoChars promo ++ c)) = _
  rw [scanText_file hcoord, scanPawn_push (rankLetter_ne _) (rankChar_rankLetter _), mkSquare_rnkIdx_filIdx]
  exact congrArg _ (scanSuffix_promoChars hc (squareStr dst) promo)

omit hc in
/-- Without its mark a pawn capture is taken for an advance to no rank. -/
theorem scanText_bareCapture (f : Fin 8) (dst : Square) (promo : Option Piece) :
    scanText ((SanText.pawn (some f) false dst promo).chars ++ c) = .invalid := by
  have hcoord : ∀ s, scanCoordinate (fileLetter f :: fileLetter (filIdx dst) :: s) = none := fun s =>
    scanCoordinate_none (Or.inl (scanSquare_none (Or.inr (rankChar_fileLetter _))))
  rw [SanText.chars, List.append_assoc]
  show scanText (fileLetter f :: fileLetter (filIdx dst) :: (rankLetter (rnkIdx dst) ::
    (promoChars promo ++ c))) = _
  rw [scanText_file (hcoord _), scanPawn_invalid (fileLetter_ne _).1 (rankChar_fileLetter _)]

theorem scanText_castle (long : Bool) :
    scanText ((SanText.castle long).chars ++ c) = if long then .castleLong else .castleShort := by
  revert long c
  decide

/-- **SAN is read back.** -/
theorem scanText_chars {t : SanText} (ht : t.Regular) : scanText (t.chars ++ c) = t.read := by
  cases t with
  | castle long => exact scanText_castle hc long
  | piece p f r capture dst => exact scanText_pieceChars hc ht f r capture dst
  | pawn f capture dst promo =>
    cases f with
    | none =>
      cases capture with
      | false => exact scanText_push hc dst promo
      | true => exact absurd (ht rfl) Bool.false_ne_true
    | some f =>
      cases capture with
      | false => exact scanText_bareCapture f dst promo
      | true => exact scanText_capture hc f dst promo

end Read

/-- A pawn capture without its mark says its origin and destination all the same. -/
theorem bareCapture_injective {f f' : Fin 8} {dst dst' : Square} {promo promo' : Option Piece}
    {c c' : List Char} (hc : c ∈ checkMarks) (hc' : c' ∈ checkMarks)
    (h : (SanText.pawn (some f) false dst promo).chars ++ c =
      (SanText.pawn (some f') false dst' promo').chars ++ c') :
    f = f' ∧ dst = dst' ∧ promo = promo' := by
  have hsq : scanSquare ((SanText.pawn (some f) false dst promo).chars ++ c) 1 = some dst := by
    rw [SanText.chars, List.append_assoc]
    exact scanSquare_squareStr [fileLetter f] _ dst
  have hsq' : scanSquare ((SanText.pawn (some f') false dst' promo').chars ++ c') 1 = some dst' := by
    rw [SanText.chars, List.append_assoc]
    exact scanSquare_squareStr [fileLetter f'] _ dst'
  have hsuf : scanSuffix ((SanText.pawn (some f) false dst promo).chars ++ c) 3 =
      promo.map pieceLetter := by
    rw [SanText.chars, List.append_assoc]
    exact scanSuffix_promoChars hc ([fileLetter f] ++ squareStr dst) promo
  have hsuf' : scanSuffix ((SanText.pawn (some f') false dst' promo').chars ++ c') 3 =
      promo'.map pieceLetter := by
    rw [SanText.chars, List.append_assoc]
    exact scanSuffix_promoChars hc' ([fileLetter f'] ++ squareStr dst') promo'
  have hfile : fileLetter f = fileLetter f' := List.head_eq_of_cons_eq h
  rw [h, hsq'] at hsq
  rw [h, hsuf'] at hsuf
  refine ⟨?_, (Option.some.inj hsq).symm, (Option.map_injective pieceLetter_injective hsuf).symm⟩
  have := congrArg fileChar hfile
  rwa [fileChar_fileLetter, fileChar_fileLetter, Option.some.injEq] at this

/-- **The text says everything that was put into it.** -/
theorem SanText.chars_injective {t t' : SanText} (ht : t.Regular) (ht' : t'.Regular)
    {c c' : List Char} (hc : c ∈ checkMarks) (hc' : c' ∈ checkMarks)
    (h : t.chars ++ c = t'.chars ++ c') : t = t' := by
  have hread : t.read = t'.read := by rw [← scanText_chars hc ht, h, scanText_chars hc' ht']
  cases t with
  | castle long =>
    cases t' with
    | castle long' => cases long <;> cases long' <;> first | rfl | cases hread
    | pawn f capture _ _ => cases long <;> cases f <;> cases capture <;> cases hread
    | piece => cases long <;> cases hread
  | piece p f r capture dst =>
    cases t' with
    | castle long' => cases long' <;> cases hread
    | pawn f capture _ _ => cases f <;> cases capture <;> cases hread
    | piece =>
      cases hread
      rfl
  | pawn f capture dst promo =>
    cases t' with
    | castle long' => cases long' <;> cases f <;> cases capture <;> cases hread
    | piece => cases f <;> cases capture <;> cases hread
    | pawn f' capture' dst' promo' =>
      cases f with
      | none =>
        cases capture with
        | true => exact absurd (ht rfl) Bool.false_ne_true
        | false =>
          cases f' <;> cases capture' <;>
            simp only [read, reduceCtorEq, MoveText.pawnPush.injEq] at hread
          rw [hread.1, Option.map_injective pieceLetter_injective hread.2]
      | some f =>
        cases capture with
        | true =>
          cases f' <;> cases capture' <;>
            simp only [read, reduceCtorEq, MoveText.pawnCapture.injEq] at hread
          rw [hread.1, hread.2.1, Option.map_injective pieceLetter_injective hread.2.2]
        | false =>
          cases f' with
          | none =>
            cases capture' with
            | true => exact absurd (ht' rfl) Bool.false_ne_true
            | false => cases hread
          | some f' =>
            cases capture' with
            | true => cases hread
            | false =>
              obtain ⟨rfl, rfl, rfl⟩ := bareCapture_injective hc hc' h
              rfl

end HoiChess.Chess
