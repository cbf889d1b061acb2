import Mathlib.Data.List.TakeWhile
import HoiChess.Chess.Exact
import HoiChess.Chess.San
import HoiChess.Chess.WellPlaced

/-!
# Writing a FEN

`get_fen` runs over the squares from the eighth rank down and counts empty squares; the
placement loop of `parse_fen` undoes it square by square (`placeLoop_fenLoop`), and
`sscanf` takes the fields apart where the blanks are (`scanFen_getFen`).  The board that is
read has the same men, side, rights, en passant square and clocks, and so the same
redundant fields (`Consistent.eq_of`).  What a FEN does not say is lost: the move counters
of the men and who has castled (`reached_fenRoundTrip`).
-/

namespace HoiChess.Chess

open WordSet Grid Rules

/-! ## `printf("%d")` and `scanf("%d")` -/

/-- `%d` -/
def showInt (i : Int) : List Char :=
  if i < 0 then '-' :: Nat.toDigits 10 i.natAbs else Nat.toDigits 10 i.natAbs

theorem digitChar_toNat {d : Nat} (h : d < 10) : d.digitChar.toNat - '0'.toNat = d := by
  have hall : ∀ e : Fin 10, e.val.digitChar.toNat - '0'.toNat = e.val := by decide
  exact hall ⟨d, h⟩

theorem digitsValue_append (ds : List Char) (c : Char) :
    digitsValue (ds ++ [c]) = digitsValue ds * 10 + (c.toNat - '0'.toNat) := by
  simp [digitsValue]

/-- **The digits of a number are read back.** -/
theorem digitsValue_toDigits (n : Nat) : digitsValue (Nat.toDigits 10 n) = n := by
  induction n using Nat.strongRecOn with
  | ind n ih =>
    rw [Nat.toDigits_eq_if (by decide)]
    split
    · rename_i h
      show digitsValue ([] ++ [n.digitChar]) = n
      rw [digitsValue_append, digitChar_toNat h]
      simp [digitsValue]
    · rw [digitsValue_append, ih (n / 10) (by omega), digitChar_toNat (by omega)]
      omega

theorem isDigit_of_mem {n : Nat} {c : Char} (h : c ∈ Nat.toDigits 10 n) : c.isDigit = true :=
  Nat.isDigit_of_mem_toDigits (by decide) (by decide) h

theorem not_isSpace_of_isDigit {c : Char} (h : c.isDigit = true) :
    isSpace c = false ∧ c ≠ '-' ∧ c ≠ '+' := by
  have hno : ∀ d : Char, d.isDigit = false → c ≠ d := by
    rintro d hd rfl
    rw [hd] at h
    cases h
  have hsp := hno ' ' (by decide)
  have hmi := hno '-' (by decide)
  have hpl := hno '+' (by decide)
  have h1 := hno '\t' (by decide)
  have h2 := hno '\n' (by decide)
  have h3 := hno '\x0b' (by decide)
  have h4 := hno '\x0c' (by decide)
  have h5 := hno '\r' (by decide)
  exact ⟨by simp [isSpace, hsp, h1, h2, h3, h4, h5], hmi, hpl⟩

theorem takeWhile_isDigit {ds t : List Char} (hd : ∀ c ∈ ds, c.isDigit = true)
    (ht : (t.head?.map Char.isDigit).getD false = false) :
    (ds ++ t).takeWhile Char.isDigit = ds := by
  induction ds with
  | nil =>
    cases t with
    | nil => rfl
    | cons c t => exact List.takeWhile_cons_of_neg (by simpa using ht)
  | cons c ds ih =>
    rw [List.cons_append, List.takeWhile_cons_of_pos (hd c List.mem_cons_self),
      ih fun c' hc' => hd c' (List.mem_cons_of_mem _ hc')]

section ScanInt

variable {ds t : List Char} (hds : ∀ c ∈ ds, c.isDigit = true) (hne : ds ≠ [])
  (ht : (t.head?.map Char.isDigit).getD false = false)

include hds hne ht

/-- Digits after a blank are read up to what is no digit. -/
theorem scanInt_digits : scanInt (' ' :: ds ++ t) = some (storeInt (digitsValue ds), t) := by
  obtain ⟨d, ds', hcons⟩ := List.exists_cons_of_ne_nil hne
  obtain ⟨hsp, hmi, hpl⟩ := not_isSpace_of_isDigit (hds d (by rw [hcons]; exact List.mem_cons_self))
  have hblank : isSpace ' ' = true := by decide
  unfold scanInt
  rw [List.cons_append, List.dropWhile_cons_of_pos hblank, hcons, List.cons_append,
    List.dropWhile_cons_of_neg (by simp [hsp])]
  dsimp only
  split
  · rename_i e
    exact absurd (List.head_eq_of_cons_eq e) hmi
  · rename_i e
    exact absurd (List.head_eq_of_cons_eq e) hpl
  · rw [← List.cons_append, ← hcons]
    simp only [takeWhile_isDigit hds ht, if_neg hne, List.drop_left]
    rw [if_neg (by decide)]

theorem scanInt_negative :
    scanInt (' ' :: '-' :: ds ++ t) = some (storeInt (-digitsValue ds), t) := by
  have hblank : isSpace ' ' = true := by decide
  have hminus : isSpace '-' = false := by decide
  unfold scanInt
  rw [List.cons_append, List.dropWhile_cons_of_pos hblank, List.cons_append,
    List.dropWhile_cons_of_neg (by simp [hminus])]
  simp only [takeWhile_isDigit hds ht, if_neg hne, List.drop_left, if_true]

end ScanInt

theorem storeInt_of_fits {v : Int} (h : -2 ^ 31 ≤ v ∧ v < 2 ^ 31) : storeInt v = v := by
  rw [storeInt, min_eq_left (by omega), max_eq_right (by omega),
    Int.bmod_eq_of_le (by omega) (by omega)]

/-- **A number that fits is read back**, whatever but a digit follows. -/
theorem scanInt_showInt {i : Int} (h : -2 ^ 31 ≤ i ∧ i < 2 ^ 31) {t : List Char}
    (ht : (t.head?.map Char.isDigit).getD false = false) :
    scanInt (' ' :: showInt i ++ t) = some (i, t) := by
  have hds : ∀ c ∈ Nat.toDigits 10 i.natAbs, c.isDigit = true := fun c => isDigit_of_mem
  unfold showInt
  split
  · rw [scanInt_negative hds Nat.toDigits_ne_nil ht, digitsValue_toDigits,
      storeInt_of_fits (by omega)]
    congr 2
    omega
  · rw [scanInt_digits hds Nat.toDigits_ne_nil ht, digitsValue_toDigits,
      storeInt_of_fits (by omega)]
    congr 2
    omega

/-- The beginning of a number is a number. -/
theorem scanInt_take (i : Int) {m : Nat} (hm : 2 ≤ m) :
    ∃ v, scanInt (' ' :: (showInt i).take m) = some (v, []) := by
  have hds : ∀ m, ∀ c ∈ (Nat.toDigits 10 i.natAbs).take m, c.isDigit = true :=
    fun m c hc => isDigit_of_mem (List.mem_of_mem_take hc)
  have hne : ∀ m, 0 < m → (Nat.toDigits 10 i.natAbs).take m ≠ [] := by
    intro m hm e
    rcases List.take_eq_nil_iff.mp e with h0 | h0
    · omega
    · exact Nat.toDigits_ne_nil h0
  obtain ⟨m, rfl⟩ := Nat.exists_eq_add_of_le' hm
  unfold showInt
  split
  · have := scanInt_negative (t := []) (hds (m + 1)) (hne (m + 1) (by omega)) rfl
    rw [List.append_nil] at this
    exact ⟨_, this⟩
  · have := scanInt_digits (t := []) (hds (m + 2)) (hne (m + 2) (by omega)) rfl
    rw [List.append_nil] at this
    exact ⟨_, this⟩

theorem showInt_length {i : Int} (h : -2 ^ 31 ≤ i ∧ i < 2 ^ 31) : (showInt i).length ≤ 11 := by
  have hlen : (Nat.toDigits 10 i.natAbs).length ≤ 10 :=
    (Nat.length_toDigits_le_iff (by decide) (by decide)).mpr (by omega)
  unfold showInt
  split
  · rw [List.length_cons]
    omega
  · omega

/-! ## `get_fen` -/

/-- `if (empty != 0) { *s++ = '0' + empty; .. }` -/
def fenRun (empty : Nat) : List Char :=
  if empty ≠ 0 then [Char.ofNat ('0'.toNat + empty)] else []

/-- The squares in the order of the two loops. -/
def fenOrder : List Square :=
  (List.finRange 8).reverse.flatMap fun r => (List.finRange 8).map fun f => mkSquare r f

namespace Board

variable (b : Board)

def fenLetter (sq : Square) (p : Piece) : Char :=
  if b.colorAt sq = some .white then pieceLetter p else (pieceLetter p).toLower

/-- The placement, from the squares that are left and the empty squares counted. -/
def fenLoop : List Square → Nat → List Char
  | [], _ => []
  | sq :: sqs, empty =>
    let (s, empty) :=
      match b.pieceAt sq with
      | none => ([], empty + 1)
      | some p => (fenRun empty ++ [b.fenLetter sq p], 0)
    if fil sq = 7 then
      s ++ fenRun empty ++ (if rnk sq ≠ rank1 then ['/'] else []) ++ fenLoop sqs 0
    else s ++ fenLoop sqs empty

def fenFlags : List Char :=
  (if b.hasFlag .wk then ['K'] else []) ++ (if b.hasFlag .wq then ['Q'] else []) ++
    (if b.hasFlag .bk then ['k'] else []) ++ (if b.hasFlag .bq then ['q'] else []) ++
    if !(b.hasFlag .wk || b.hasFlag .wq || b.hasFlag .bk || b.hasFlag .bq) then ['-'] else []

def fenEp : List Char :=
  match b.epsq with
  | some sq => squareStr sq
  | none => ['-']

/-- `snprintf(s, 20, " %s %d %d", ..)` leaves at most 19 characters. -/
def fenTail : List Char :=
  (' ' :: b.fenEp ++ ' ' :: showInt b.movecnt50 ++ ' ' :: showInt b.moveno).take 19

/-- `get_fen` -/
def getFen : String :=
  String.ofList (b.fenLoop fenOrder 0 ++ ' ' :: (if b.side = .white then 'w' else 'b') :: ' ' ::
    b.fenFlags ++ b.fenTail)

end Board

/-! ## The placement -/

/-- The square after which `n` squares are left. -/
def fenSq (n : Nat) : Square := ⟨(n / 8 * 8 + (7 - n % 8)) % 64, Nat.mod_lt _ (by decide)⟩

/-- The last `n` squares. -/
def fenFrom : Nat → List Square
  | 0 => []
  | n + 1 => fenSq n :: fenFrom n

theorem fenOrder_eq : fenOrder = fenFrom 64 := by decide

theorem fenFrom_nodup : (fenFrom 64).Nodup := by decide

theorem mem_fenFrom : ∀ sq, sq ∈ fenFrom 64 := by decide

theorem fenSq_coords {n : Nat} (h : n < 64) : rnk (fenSq n) = n / 8 ∧ fil (fenSq n) = 7 - n % 8 := by
  unfold rnk fil fenSq
  simp only
  omega

theorem fenRun_digit : ∀ e : Fin 9, e.val ≠ 0 → fenPiece (Char.ofNat ('0'.toNat + e.val)) = none ∧
    fenDigit (Char.ofNat ('0'.toNat + e.val)) = some e.val := by decide

section Loop

variable {s : List Char} {r : Int} {f : Nat} (hr : 0 ≤ r) (hf : f ≤ 8)

include hr hf

theorem placeLoop_fenRun {e : Nat} (he : e ≤ 8) :
    placeLoop (fenRun e ++ s) r f = placeLoop s r (f + e) := by
  unfold fenRun
  split
  · rename_i hne
    obtain ⟨hp, hd⟩ := fenRun_digit ⟨e, by omega⟩ hne
    rw [List.singleton_append, placeLoop, if_neg (by omega)]
    simp only [hp, hd]
  · rename_i h0
    rw [not_not.mp h0]
    rfl

theorem placeLoop_letter {c : Char} {m : Man} (hm : fenPiece c = some m) :
    placeLoop (c :: s) r f =
      (⟨r, f, m⟩ :: (placeLoop s r (f + 1)).1, (placeLoop s r (f + 1)).2) := by
  rw [placeLoop, if_neg (by omega)]
  simp only [hm]

theorem placeLoop_slash : placeLoop ('/' :: s) r f = placeLoop s (r - 1) 0 := by
  rw [placeLoop, if_neg (by omega)]
  rfl

end Loop

theorem fenPiece_letter (p : Piece) : fenPiece (pieceLetter p) = some (.white, p) ∧
    fenPiece (pieceLetter p).toLower = some (.black, p) := by
  cases p <;> decide

/-- The call for the man on a square. -/
def fenCall (man : Placement) (sq : Square) : Option Placing :=
  (man sq).map fun m => ⟨rnk sq, fil sq, m⟩

theorem sq_fenPlacing (sq : Square) (m : Man) :
    (Placing.mk (rnk sq) (fil sq) m).sq = some sq := by
  rw [Placing.sq_eq_some, Placing.index, square_val]
  push_cast
  rfl

/-- The calls set up the men of their squares. -/
theorem placed_fenCall (l : List Square) (man man' : Placement) (sq : Square) :
    placed man' (l.filterMap (fenCall man)) sq =
      if sq ∈ l then (man sq).or (man' sq) else man' sq := by
  induction l generalizing man' with
  | nil => rfl
  | cons t l ih =>
    cases hm : man t with
    | none =>
      rw [List.filterMap_cons_none (by rw [fenCall, hm]; rfl), ih]
      by_cases hst : sq = t
      · subst hst
        simp [hm]
      · simp [hst]
    | some m =>
      rw [List.filterMap_cons_some
        (show fenCall man t = some ⟨rnk t, fil t, m⟩ by rw [fenCall, hm]; rfl)]
      rw [placed_cons (sq_fenPlacing t m), ih]
      by_cases hst : sq = t
      · subst hst
        simp [hm]
      · simp [hst]

section Placement

variable [k : Build] {b : Board} {man : Placement}

theorem Consistent.fenPiece_fenLetter (h : Consistent b man) {sq : Square} {m : Man}
    (hm : man sq = some m) : fenPiece (b.fenLetter sq m.2) = some m := by
  obtain ⟨c, p⟩ := m
  rw [Board.fenLetter, h.colorAt_eq, hm]
  cases c with
  | white => exact (if_pos rfl).symm ▸ (fenPiece_letter p).1
  | black => exact (fenPiece_letter p).2

/-- **The placement loop undoes the printing loop**, from any square and any count on. -/
theorem placeLoop_fenLoop (h : Consistent b man) {n : Nat} (hn : n ≤ 64) {empty f : Nat} {r : Int}
    (hpos : 0 < n → r = ((n - 1) / 8 : Nat) ∧ f + empty = 7 - (n - 1) % 8) :
    placeLoop (b.fenLoop (fenFrom n) empty) r f = ((fenFrom n).filterMap (fenCall man), true) := by
  induction n generalizing empty f r with
  | zero => rfl
  | succ n ih =>
    obtain ⟨rfl, hf⟩ := hpos (by omega)
    rw [Nat.add_sub_cancel] at hf ⊢
    obtain ⟨hrnk, hfil⟩ := fenSq_coords (show n < 64 by omega)
    have hrest : ∀ g e, g + e = 8 - n % 8 →
        placeLoop (if fil (fenSq n) = 7 then
          fenRun e ++ ((if rnk (fenSq n) ≠ rank1 then ['/'] else []) ++ b.fenLoop (fenFrom n) 0)
          else b.fenLoop (fenFrom n) e) ((n / 8 : Nat) : Int) g =
            ((fenFrom n).filterMap (fenCall man), true) := by
      intro g e hge
      by_cases h7 : n % 8 = 0
      · rw [if_pos (by omega), placeLoop_fenRun (by omega) (by omega) (by omega)]
        by_cases h0 : n / 8 = 0
        · obtain rfl : n = 0 := by omega
          rw [if_neg (by simp [hrnk])]
          rfl
        · rw [if_pos (by rw [hrnk]; exact h0), List.singleton_append,
            placeLoop_slash (by omega) (by omega)]
          exact ih (by omega) fun _ => ⟨by omega, by omega⟩
      · rw [if_neg (by omega)]
        exact ih (by omega) fun _ => ⟨by omega, by omega⟩
    have hloop : ∀ s e, (match b.pieceAt (fenSq n) with
        | none => ([], empty + 1)
        | some p => (fenRun empty ++ [b.fenLetter (fenSq n) p], 0)) = (s, e) →
        b.fenLoop (fenSq n :: fenFrom n) empty = s ++ if fil (fenSq n) = 7 then
          fenRun e ++ ((if rnk (fenSq n) ≠ rank1 then ['/'] else []) ++ b.fenLoop (fenFrom n) 0)
          else b.fenLoop (fenFrom n) e := by
      intro s e he
      rw [Board.fenLoop, he]
      by_cases h7 : fil (fenSq n) = 7
      · simp only [if_pos h7, List.append_assoc]
      · simp only [if_neg h7]
    rw [fenFrom]
    cases hm : man (fenSq n) with
    | none =>
      have hp : b.pieceAt (fenSq n) = none := by
        rw [h.pieceAt_eq, hm]
        rfl
      rw [hloop [] (empty + 1) (by rw [hp]), List.nil_append, hrest f (empty + 1) (by omega),
        List.filterMap_cons_none (by rw [fenCall, hm]; rfl)]
    | some m =>
      have hp : b.pieceAt (fenSq n) = some m.2 := by
        rw [h.pieceAt_eq, hm]
        rfl
      rw [hloop (fenRun empty ++ [b.fenLetter (fenSq n) m.2]) 0 (by rw [hp]), List.append_assoc,
        placeLoop_fenRun (by omega) (by omega) (by omega), List.singleton_append,
        placeLoop_letter (by omega) (by omega) (h.fenPiece_fenLetter hm),
        hrest (f + empty + 1) 0 (by omega), List.filterMap_cons_some
          (show fenCall man (fenSq n) = some ⟨rnk (fenSq n), fil (fenSq n), m⟩ by rw [fenCall, hm]; rfl),
        hrnk, hfil, hf]

/-- **The placement field sets the men up again.** -/
theorem placeAll_fenCall (man : Placement) :
    ∃ b', Board.clear.placeAll ((fenFrom 64).filterMap (fenCall man)) = some b' ∧
      Consistent b' man ∧ KingSeen b' man := by
  have hsq : ∀ p ∈ (fenFrom 64).filterMap (fenCall man), ∃ sq m, p = ⟨rnk sq, fil sq, m⟩ := by
    intro p hp
    obtain ⟨sq, _, hsq⟩ := List.mem_filterMap.mp hp
    obtain ⟨m, _, rfl⟩ := Option.map_eq_some_iff.mp hsq
    exact ⟨sq, m, rfl⟩
  have hcalls : CallsOk Board.clear ((fenFrom 64).filterMap (fenCall man)) := by
    rw [callsOk_iff .clear]
    constructor
    · intro p hp
      obtain ⟨sq, m, rfl⟩ := hsq p hp
      exact ⟨sq, sq_fenPlacing sq m, rfl⟩
    · refine List.pairwise_filterMap.mpr (fenFrom_nodup.imp ?_)
      intro s t hne p hp q hq e
      obtain ⟨m, _, rfl⟩ := Option.map_eq_some_iff.mp hp
      obtain ⟨m', _, rfl⟩ := Option.map_eq_some_iff.mp hq
      have h1 := Placing.sq_eq_some.mp (sq_fenPlacing s m)
      have h2 := Placing.sq_eq_some.mp (sq_fenPlacing t m')
      exact hne (Fin.ext (by omega))
  obtain ⟨b', hb', hc, hk⟩ := placeAll_consistent .clear (fun c k hk => by cases hk) hcalls
  have hman : placed (fun _ => none) ((fenFrom 64).filterMap (fenCall man)) = man := by
    funext sq
    rw [placed_fenCall, if_pos (mem_fenFrom sq), Option.or_none]
  rw [hman] at hc hk
  exact ⟨b', hb', hc, hk⟩

end Placement

/-! ## The other fields -/

theorem fenRun_length (e : Nat) : (fenRun e).length ≤ 1 ∧ (e = 0 → (fenRun e).length = 0) := by
  unfold fenRun
  split
  · rename_i h
    exact ⟨le_rfl, fun e => absurd e h⟩
  · exact ⟨Nat.zero_le _, fun _ => rfl⟩

section Fields

variable {b : Board}

/-- The placement field fits its buffer. -/
theorem fenLoop_length {n : Nat} (hn : n ≤ 64) (empty : Nat) :
    (b.fenLoop (fenFrom n) empty).length ≤ n + (n + 7) / 8 + (fenRun empty).length := by
  induction n generalizing empty with
  | zero => simp [fenFrom, Board.fenLoop]
  | succ n ih =>
    obtain ⟨_, hfil⟩ := fenSq_coords (show n < 64 by omega)
    have hslash : (if rnk (fenSq n) ≠ rank1 then ['/'] else []).length ≤ 1 := by
      split <;> simp
    rw [fenFrom, Board.fenLoop]
    cases b.pieceAt (fenSq n) with
    | none =>
      have h1 := fenRun_length (empty + 1)
      by_cases h7 : fil (fenSq n) = 7
      · have := ih (by omega) 0
        have h0 := (fenRun_length 0).2 rfl
        simp only [if_pos h7, List.length_append, List.length_nil]
        omega
      · have := ih (by omega) (empty + 1)
        simp only [if_neg h7, List.length_append, List.length_nil]
        omega
    | some p =>
      have h0 := (fenRun_length 0).2 rfl
      have := ih (by omega) 0
      by_cases h7 : fil (fenSq n) = 7
      · simp only [if_pos h7, List.length_append, List.length_cons, List.length_nil]
        omega
      · simp only [if_neg h7, List.length_append, List.length_cons, List.length_nil]
        omega

/-- No blank and no NUL is among the characters. -/
def Plain (s : List Char) : Prop := ∀ c ∈ s, isSpace c = false ∧ c ≠ '\x00'

theorem plain_of_all {s : List Char} (h : s.all (fun c => !isSpace c && c != '\x00') = true) :
    Plain s := by
  intro c hc
  have hall := List.all_eq_true.mp h c hc
  rw [Bool.and_eq_true, Bool.not_eq_true', bne_iff_ne] at hall
  exact hall

theorem Plain.append {s t : List Char} (hs : Plain s) (ht : Plain t) : Plain (s ++ t) := by
  intro c hc
  exact (List.mem_append.mp hc).elim (hs c) (ht c)

theorem plain_fenRun {e : Nat} (he : e ≤ 8) : Plain (fenRun e) := by
  have hall : ∀ e : Fin 9, (fenRun e.val).all (fun c => !isSpace c && c != '\x00') = true := by
    decide
  exact plain_of_all (hall ⟨e, by omega⟩)

theorem plain_letter (p : Piece) : Plain [pieceLetter p] ∧ Plain [(pieceLetter p).toLower] := by
  cases p <;> exact ⟨plain_of_all (by decide), plain_of_all (by decide)⟩

/-- **What holds of counts, letters and slashes holds of the placement field.** -/
theorem forall_mem_fenLoop {P : Char → Prop} (hrun : ∀ e ≤ 8, ∀ c ∈ fenRun e, P c)
    (hslash : P '/') (hletter : ∀ p, P (pieceLetter p) ∧ P (pieceLetter p).toLower) {n : Nat}
    (hn : n ≤ 64) {empty : Nat} (he : 0 < n → empty ≤ 7 - (n - 1) % 8) :
    ∀ c ∈ b.fenLoop (fenFrom n) empty, P c := by
  have happend : ∀ {s t : List Char}, (∀ c ∈ s, P c) → (∀ c ∈ t, P c) → ∀ c ∈ s ++ t, P c :=
    fun hs ht c hc => (List.mem_append.mp hc).elim (hs c) (ht c)
  induction n generalizing empty with
  | zero => exact fun c hc => by cases hc
  | succ n ih =>
    have he := he (by omega)
    rw [Nat.add_sub_cancel] at he
    obtain ⟨_, hfil⟩ := fenSq_coords (show n < 64 by omega)
    have hend : ∀ c ∈ (if rnk (fenSq n) ≠ rank1 then ['/'] else []), P c := by
      split
      · exact fun c hc => List.mem_singleton.mp hc ▸ hslash
      · exact fun c hc => by cases hc
    have hman : ∀ p, ∀ c ∈ [b.fenLetter (fenSq n) p], P c := by
      intro p c hc
      rw [List.mem_singleton.mp hc]
      unfold Board.fenLetter
      split
      · exact (hletter p).1
      · exact (hletter p).2
    have hcount : ∀ c ∈ fenRun empty, P c := hrun empty (by omega)
    rw [fenFrom, Board.fenLoop]
    cases b.pieceAt (fenSq n) with
    | none =>
      by_cases h7 : fil (fenSq n) = 7
      · simp only [if_pos h7, List.nil_append]
        exact happend (happend (hrun _ (by omega)) hend) (ih (by omega) fun _ => by omega)
      · simp only [if_neg h7, List.nil_append]
        exact ih (by omega) fun _ => by omega
    | some p =>
      by_cases h7 : fil (fenSq n) = 7
      · simp only [if_pos h7]
        exact happend (happend (happend (happend hcount (hman p)) (hrun _ (by omega))) hend)
          (ih (by omega) fun _ => by omega)
      · simp only [if_neg h7]
        exact happend (happend hcount (hman p)) (ih (by omega) fun _ => by omega)

theorem plain_fenLoop {n : Nat} (hn : n ≤ 64) {empty : Nat} (he : 0 < n → empty ≤ 7 - (n - 1) % 8) :
    Plain (b.fenLoop (fenFrom n) empty) :=
  forall_mem_fenLoop (fun _ he => plain_fenRun he) (by decide)
    (fun p => ⟨(plain_letter p).1 _ List.mem_cons_self, (plain_letter p).2 _ List.mem_cons_self⟩) hn he

theorem fenFlags_spec (b : Board) :
    Plain b.fenFlags ∧ b.fenFlags ≠ [] ∧ b.fenFlags.length ≤ 4 := by
  unfold Board.fenFlags
  cases b.hasFlag .wk <;> cases b.hasFlag .wq <;> cases b.hasFlag .bk <;> cases b.hasFlag .bq <;>
    exact ⟨plain_of_all (by decide), by decide, by decide⟩

theorem squareStr_spec : ∀ sq, Plain (squareStr sq) ∧ squareStr sq ≠ [] ∧
    (squareStr sq).length ≤ 2 := by
  have hall : ∀ sq, (squareStr sq).all (fun c => !isSpace c && c != '\x00') = true ∧
      squareStr sq ≠ [] ∧ (squareStr sq).length ≤ 2 := by
    decide
  exact fun sq => ⟨plain_of_all (hall sq).1, (hall sq).2⟩

theorem fenEp_spec (b : Board) : Plain b.fenEp ∧ b.fenEp ≠ [] ∧ b.fenEp.length ≤ 2 := by
  unfold Board.fenEp
  split
  · exact squareStr_spec _
  · exact ⟨plain_of_all (by decide), by decide, by decide⟩

theorem nul_not_mem_showInt {i : Int} {c : Char} (h : c ∈ showInt i) : c ≠ '\x00' := by
  have hd : ∀ {c}, c ∈ Nat.toDigits 10 i.natAbs → c ≠ '\x00' := by
    rintro c hc rfl
    exact absurd (isDigit_of_mem hc) (by decide)
  unfold showInt at h
  split at h
  · rcases List.mem_cons.mp h with rfl | h
    · decide
    · exact hd h
  · exact hd h

theorem nul_not_mem_fenTail (b : Board) {c : Char} (h : c ∈ b.fenTail) : c ≠ '\x00' := by
  rcases List.mem_append.mp (List.mem_of_mem_take h) with h | h
  · rcases List.mem_append.mp h with h | h
    · rcases List.mem_cons.mp h with rfl | h
      · decide
      · exact ((fenEp_spec b).1 c h).2
    · rcases List.mem_cons.mp h with rfl | h
      · decide
      · exact nul_not_mem_showInt h
  · rcases List.mem_cons.mp h with rfl | h
    · decide
    · exact nul_not_mem_showInt h

/-! ## The fields are taken apart -/

theorem scanWord_plain {w s : List Char} {n : Nat} (hw : Plain w) (hne : w ≠ [])
    (hn : w.length ≤ n) (blank : Bool) :
    scanWord n ((if blank then [' '] else []) ++ w ++ ' ' :: s) = some (w, ' ' :: s) := by
  obtain ⟨c, w', rfl⟩ := List.exists_cons_of_ne_nil hne
  have hc : isSpace c = false := (hw c List.mem_cons_self).1
  have hblank : isSpace ' ' = true := by decide
  have hdrop : ((if blank then [' '] else []) ++ (c :: w') ++ ' ' :: s).dropWhile isSpace =
      (c :: w') ++ ' ' :: s := by
    cases blank with
    | false =>
      show List.dropWhile isSpace (c :: (w' ++ ' ' :: s)) = _
      rw [List.dropWhile_cons_of_neg (by simp [hc])]
      rfl
    | true =>
      show List.dropWhile isSpace (' ' :: c :: (w' ++ ' ' :: s)) = _
      rw [List.dropWhile_cons_of_pos hblank, List.dropWhile_cons_of_neg (by simp [hc])]
      rfl
  have htake : ((c :: w') ++ ' ' :: s).takeWhile (fun c => !isSpace c) = c :: w' := by
    rw [List.takeWhile_append_of_pos fun d hd => by rw [(hw d hd).1]; rfl,
      List.takeWhile_cons_of_neg (by simp [hblank]), List.append_nil]
  unfold scanWord
  simp only [hdrop, htake, List.take_of_length_le hn, if_neg hne, List.drop_left]

/-- **`sscanf` finds the six fields that were printed**; a long second number may be cut. -/
theorem scanFen_fields {pos flg ep : List Char} {clr : Char} {hmc : Int} (fmc : Int)
    (hpos : Plain pos ∧ pos ≠ [] ∧ pos.length ≤ 80) (hclr : isSpace clr = false)
    (hflg : Plain flg ∧ flg ≠ [] ∧ flg.length ≤ 4) (hep : Plain ep ∧ ep ≠ [] ∧ ep.length ≤ 2)
    (hh : -2 ^ 31 ≤ hmc ∧ hmc < 2 ^ 31) :
    ∃ v, scanFen (pos ++ ' ' :: clr :: ' ' :: flg ++
        (' ' :: ep ++ ' ' :: showInt hmc ++ ' ' :: showInt fmc).take 19) =
      some ⟨pos, clr, flg, ep, hmc, v⟩ ∧
      ((-2 ^ 31 ≤ fmc ∧ fmc < 2 ^ 31) →
        (' ' :: ep ++ ' ' :: showInt hmc ++ ' ' :: showInt fmc).length ≤ 19 → v = fmc) := by
  have hlen := showInt_length hh
  obtain ⟨m, hm, hcut⟩ : ∃ m, 2 ≤ m ∧
      (' ' :: ep ++ ' ' :: showInt hmc ++ ' ' :: showInt fmc).take 19 =
        ' ' :: ep ++ ' ' :: showInt hmc ++ ' ' :: (showInt fmc).take m := by
    obtain ⟨_, _, hep2⟩ := hep
    refine ⟨19 - (' ' :: ep ++ ' ' :: showInt hmc).length - 1, ?_, ?_⟩
    · simp only [List.length_append, List.length_cons]
      omega
    · rw [List.take_append, List.take_of_length_le]
      · congr 1
        obtain ⟨j, hj⟩ : ∃ j, 19 - (' ' :: ep ++ ' ' :: showInt hmc).length = j + 1 := by
          refine ⟨18 - (' ' :: ep ++ ' ' :: showInt hmc).length, ?_⟩
          simp only [List.length_append, List.length_cons]
          omega
        rw [hj, List.take_succ_cons]
        rfl
      · simp only [List.length_append, List.length_cons]
        omega
  obtain ⟨v, hv⟩ := scanInt_take fmc hm
  refine ⟨v, ?_, ?_⟩
  · have h1 : ∀ t, scanWord 80 (pos ++ ' ' :: t) = some (pos, ' ' :: t) :=
      fun t => scanWord_plain hpos.1 hpos.2.1 hpos.2.2 false
    have h2 : ∀ t, scanChar (' ' :: clr :: t) = some (clr, t) := by
      intro t
      unfold scanChar
      rw [List.dropWhile_cons_of_pos (by decide), List.dropWhile_cons_of_neg (by simp [hclr])]
    have h3 : ∀ t, scanWord 4 (' ' :: flg ++ ' ' :: t) = some (flg, ' ' :: t) :=
      fun t => scanWord_plain hflg.1 hflg.2.1 hflg.2.2 true
    have h4 : ∀ t, scanWord 2 (' ' :: ep ++ ' ' :: t) = some (ep, ' ' :: t) :=
      fun t => scanWord_plain hep.1 hep.2.1 hep.2.2 true
    have h5 : ∀ t, scanInt (' ' :: showInt hmc ++ ' ' :: t) = some (hmc, ' ' :: t) :=
      fun t => scanInt_showInt hh (by rfl)
    rw [hcut]
    have htext : pos ++ ' ' :: clr :: ' ' :: flg ++
        (' ' :: ep ++ ' ' :: showInt hmc ++ ' ' :: (showInt fmc).take m) =
        pos ++ ' ' :: clr :: (' ' :: flg ++ ' ' :: (ep ++ ' ' :: showInt hmc ++
          ' ' :: (showInt fmc).take m)) := by
      simp
    unfold scanFen
    rw [htext, h1]
    simp only [Option.bind_eq_bind, Option.bind_some, h2, h3]
    have htext' : ' ' :: (ep ++ ' ' :: showInt hmc ++ ' ' :: (showInt fmc).take m) =
        ' ' :: ep ++ ' ' :: (showInt hmc ++ ' ' :: (showInt fmc).take m) := by
      simp
    rw [htext', h4]
    simp only [Option.bind_some]
    rw [← List.cons_append, h5]
    simp only [Option.bind_some, hv]
    rfl
  · intro hf hfit
    rw [List.take_of_length_le hfit] at hcut
    have hsame : showInt fmc = (showInt fmc).take m := List.cons_injective (List.append_cancel_left hcut)
    rw [← hsame] at hv
    have := scanInt_showInt hf (t := []) rfl
    rw [List.append_nil, hv] at this
    exact congrArg Prod.fst (Option.some.inj this)

end Fields

/-! ## The board that is read -/

/-- What a board without a history holds where a FEN says nothing. -/
structure Board.Fresh (b : Board) : Prop where
  pceMovecnt : b.pceMovecnt = Vector.replicate 64 0#32
  hasCastled : b.hasCastled = .both false

/-- No flag is set but castling flags. -/
def Board.OnlyCastling (b : Board) : Prop :=
  ∀ i, mem b.flags i = true → ∃ f : CastleFlag, i = f.bit

theorem Board.OnlyCastling.congr {b b' : Board} (h : b.OnlyCastling) (he : b'.flags = b.flags) :
    b'.OnlyCastling := by
  unfold Board.OnlyCastling
  rw [he]
  exact h

/-- The flags are those that are asked for. -/
theorem flags_eq {b b' : Board} (h : b.OnlyCastling) (h' : b'.OnlyCastling)
    (hf : ∀ f, b.hasFlag f = b'.hasFlag f) : b.flags = b'.flags := by
  apply WordSet.ext
  intro i
  by_cases hi : ∃ f : CastleFlag, i = f.bit
  · obtain ⟨f, rfl⟩ := hi
    rw [← hasFlag_eq_mem, ← hasFlag_eq_mem, hf]
  · have hno : ∀ {c : Board}, c.OnlyCastling → mem c.flags i = false := fun hc => by
      rw [← Bool.not_eq_true]
      exact fun e => hi (hc i e)
    rw [hno h, hno h']

section Read

variable [k : Build] {b b' : Board} {man : Placement}

theorem Board.OnlyCastling.setFlag (h : b.OnlyCastling) (f : CastleFlag) :
    (b.setFlag f).OnlyCastling := by
  unfold Board.setFlag
  split
  · exact h
  · intro i hi
    simp only [f.mask_eq] at hi
    change mem (insert b.flags f.bit) i = true at hi
    rw [mem_insert, Bool.or_eq_true, decide_eq_true_eq] at hi
    rcases hi with hi | hi
    · exact h i hi
    · exact ⟨f, hi.symm⟩

theorem Board.OnlyCastling.clearFlag (h : b.OnlyCastling) (f : CastleFlag) :
    (b.clearFlag f).OnlyCastling := by
  unfold Board.clearFlag
  split
  · intro i hi
    simp only [f.mask_eq] at hi
    change mem (erase b.flags f.bit) i = true at hi
    rw [mem_erase, Bool.and_eq_true] at hi
    exact h i hi.1
  · exact h

/-- **The redundant fields follow from the men, the side, the flags and the en passant square.** -/
theorem Consistent.eq_of (h : Consistent b man) (h' : Consistent b' man) (hside : b.side = b'.side)
    (hflags : b.flags = b'.flags) (hep : b.epsq = b'.epsq) (hking : b.king = b'.king) :
    b = { b' with
      moveno := b.moveno
      movecnt50 := b.movecnt50
      hasCastled := b.hasCastled
      pceMovecnt := b.pceMovecnt } := by
  have hpos : b.position = b'.position := PerColor.ext_get fun c => PerPiece.ext_get fun p =>
    WordSet.ext fun sq => by
      rw [show mem ((b.position.get c).get p) sq = _ from h.pos c p sq,
        show mem ((b'.position.get c).get p) sq = _ from h'.pos c p sq]
  have hall : b.positionAll = b'.positionAll := PerColor.ext_get fun c =>
    WordSet.ext fun sq => by
      rw [show mem (b.positionAll.get c) sq = _ from h.all c sq,
        show mem (b'.positionAll.get c) sq = _ from h'.all c sq]
  have hmat : b.material = b'.material :=
    PerColor.ext_get fun c => by rw [h.material, h'.material]
  have hrot : ∀ {x y : Bitboard} {map : Square → Square}, (∀ t, ∃ s, map s = t) →
      (∀ s, mem x (map s) = (man s).isSome) → (∀ s, mem y (map s) = (man s).isSome) → x = y := by
    intro x y map hsurj hx hy
    apply WordSet.ext
    intro t
    obtain ⟨s, rfl⟩ := hsurj t
    rw [hx, hy]
  have hocc : b.occupied = b'.occupied := WordSet.ext fun sq => by rw [h.occ_eq, h'.occ_eq]
  have h90 := hrot mapL90_surjective h.rot.occL90 h'.rot.occL90
  have hl45 := hrot mapL45_surjective h.rot.occL45 h'.rot.occL45
  have hr45 := hrot mapR45_surjective h.rot.occR45 h'.rot.occR45
  have hstate : stateKey b = stateKey b' := by
    have hf : ∀ f, b.hasFlag f = b'.hasFlag f := fun f => by
      rw [hasFlag_eq_mem, hasFlag_eq_mem, hflags]
    simp only [stateKey, flagsKey, flagKeyIf, hf, hep]
  have hhash : b.hashkey = b'.hashkey := by rw [h.hash, h'.hash, hside, hstate]
  have hpawn : b.pawnhashkey = b'.pawnhashkey := by rw [h.pawnhash, h'.pawnhash, hside]
  cases b
  cases b'
  cases hpos
  cases hall
  cases hocc
  cases h90
  cases hl45
  cases hr45
  cases hking
  cases hflags
  cases hep
  cases hside
  cases hmat
  cases hhash
  cases hpawn
  rfl

/-! ### What the steps of `parse_fen` leave alone -/

theorem placeAll_frame {ps : List Placing} {b b' : Board} (h : b.placeAll ps = some b')
    (hf : b.Fresh) : b'.Fresh ∧ b'.flags = b.flags ∧ b'.epsq = b.epsq := by
  induction ps generalizing b with
  | nil =>
    cases h
    exact ⟨hf, rfl, rfl⟩
  | cons p ps ih =>
    rw [Board.placeAll] at h
    split at h
    · cases h
    · obtain ⟨h1, h2, h3⟩ := ih h ⟨hf.pceMovecnt, hf.hasCastled⟩
      exact ⟨h1, h2, h3⟩

theorem Board.Fresh.setFlag (h : b.Fresh) (f : CastleFlag) : (b.setFlag f).Fresh := by
  unfold Board.setFlag
  split
  · exact h
  · exact ⟨h.pceMovecnt, h.hasCastled⟩

theorem Board.Fresh.setSide (h : b.Fresh) (c : Color) :
    (b.setSide c).Fresh ∧ (b.setSide c).flags = b.flags ∧ (b.setSide c).king = b.king := by
  unfold Board.setSide
  split
  · exact ⟨⟨h.pceMovecnt, h.hasCastled⟩, rfl, rfl⟩
  · exact ⟨h, rfl, rfl⟩

/-- A letter is read as its flag. -/
theorem flagLoop_letter (b : Board) (f : CastleFlag) (c : Char) (cs : List Char)
    (hc : c = match f with | .wk => 'K' | .wq => 'Q' | .bk => 'k' | .bq => 'q') :
    b.flagLoop (c :: cs) = (b.setFlag f).flagLoop cs := by
  subst hc
  cases f <;> rfl

/-- **The castling letters set the flags that were printed.** -/
theorem flagLoop_fenFlags {b0 : Board} (h : b0.Fresh) (hno : b0.flags = 0#32) (b : Board) :
    ∃ b1, b0.flagLoop b.fenFlags = some b1 ∧ b1.Fresh ∧ b1.OnlyCastling ∧
      ∀ f, b1.hasFlag f = b.hasFlag f := by
  have hz : ∀ f, b0.hasFlag f = false := by
    intro f
    rw [hasFlag_eq_mem, hno, mem_zero]
  have honly : b0.OnlyCastling := by
    intro i hi
    rw [hno, mem_zero] at hi
    cases hi
  have hset : ∀ (c : Board) (f : CastleFlag) (ch : Char) (cs : List Char),
      ch = (match f with | .wk => 'K' | .wq => 'Q' | .bk => 'k' | .bq => 'q') →
      c.Fresh ∧ c.OnlyCastling → ∃ c' : Board, (c'.Fresh ∧ c'.OnlyCastling) ∧
        (∀ g, c'.hasFlag g = (c.hasFlag g || (b.hasFlag f && decide (f = g)))) ∧
        c.flagLoop ((if b.hasFlag f then [ch] else []) ++ cs) = c'.flagLoop cs := by
    rintro c f ch cs hch ⟨hf, ho⟩
    cases hb : b.hasFlag f with
    | false => exact ⟨c, ⟨hf, ho⟩, fun g => by simp, rfl⟩
    | true =>
      refine ⟨c.setFlag f, ⟨hf.setFlag f, ho.setFlag f⟩, fun g => ?_, ?_⟩
      · rw [hasFlag_setFlag, Bool.true_and]
      · exact flagLoop_letter c f ch cs hch
  unfold Board.fenFlags
  simp only [List.append_assoc]
  obtain ⟨c1, hc1, hf1, h1⟩ := hset b0 .wk 'K' ((if b.hasFlag .wq then ['Q'] else []) ++
    ((if b.hasFlag .bk then ['k'] else []) ++ ((if b.hasFlag .bq then ['q'] else []) ++
      if !(b.hasFlag .wk || b.hasFlag .wq || b.hasFlag .bk || b.hasFlag .bq) then ['-'] else [])))
    rfl ⟨h, honly⟩
  obtain ⟨c2, hc2, hf2, h2⟩ := hset c1 .wq 'Q' ((if b.hasFlag .bk then ['k'] else []) ++
    ((if b.hasFlag .bq then ['q'] else []) ++
      if !(b.hasFlag .wk || b.hasFlag .wq || b.hasFlag .bk || b.hasFlag .bq) then ['-'] else []))
    rfl hc1
  obtain ⟨c3, hc3, hf3, h3⟩ := hset c2 .bk 'k' ((if b.hasFlag .bq then ['q'] else []) ++
      if !(b.hasFlag .wk || b.hasFlag .wq || b.hasFlag .bk || b.hasFlag .bq) then ['-'] else [])
    rfl hc2
  obtain ⟨c4, hc4, hf4, h4⟩ := hset c3 .bq 'q'
    (if !(b.hasFlag .wk || b.hasFlag .wq || b.hasFlag .bk || b.hasFlag .bq) then ['-'] else [])
    rfl hc3
  refine ⟨c4, ?_, hc4.1, hc4.2, ?_⟩
  · rw [h1, h2, h3, h4]
    split <;> rfl
  · intro f
    rw [hf4, hf3, hf2, hf1, hz]
    cases f <;> simp

/-- **The en passant field is read back.** -/
theorem setEpField_fenEp (b0 : Board) {b : Board}
    (hep : ∀ e, b.epsq = some e → rnk e = rank3 ∨ rnk e = rank6) :
    b0.setEpField b.fenEp = some (if b.epsq = none then b0.clearEpsq else b0.setEpsq b.epsq) := by
  unfold Board.fenEp
  cases he : b.epsq with
  | none => rfl
  | some e =>
    have hchars : ∀ e : Square, ∀ g : Fin 8, ((rnk e = rank3 ∧ g = 2) ∨ (rnk e = rank6 ∧ g = 5)) →
        (squareStr e).getD 0 '\x00' ≠ '-' ∧
        ((((squareStr e).getD 0 '\x00').toNat : Int) - 'a'.toNat = fil e) ∧
        ((((squareStr e).getD 1 '\x00').toNat : Int) - '1'.toNat = rnk e) ∧
        mkSquare g (filIdx e) = e := by decide
    have hread : ∀ g : Fin 8, ((rnk e = rank3 ∧ g = 2) ∨ (rnk e = rank6 ∧ g = 5)) →
        b0.setEpField (squareStr e) = some (b0.setEpsq (some e)) := by
      intro g hg
      obtain ⟨h0, hf, hr, hsq⟩ := hchars e g hg
      have hlt := fil_lt e
      unfold Board.setEpField
      simp only [if_neg h0, hf, hr]
      rw [dif_pos (by omega)]
      rcases hg with ⟨hg, rfl⟩ | ⟨hg, rfl⟩
      · rw [if_pos (by exact_mod_cast hg)]
        exact congrArg (fun s => some (b0.setEpsq (some s))) hsq
      · rw [if_neg (by rw [hg]; decide), if_pos (by exact_mod_cast hg)]
        exact congrArg (fun s => some (b0.setEpsq (some s))) hsq
    show b0.setEpField (squareStr e) = some (b0.setEpsq (some e))
    rcases hep e he with h3 | h6
    · exact hread 2 (Or.inl ⟨h3, rfl⟩)
    · exact hread 5 (Or.inr ⟨h6, rfl⟩)

omit k in
/-- **The six fields of a FEN that is written**, of any board with a man on it. -/
theorem scanFen_getFen (b : Board) (hne : b.fenLoop fenOrder 0 ≠ [])
    (hh : -2 ^ 31 ≤ b.movecnt50 ∧ b.movecnt50 < 2 ^ 31) :
    ∃ v, scanFen (b.getFen.toList.takeWhile (fun c => c ≠ '\x00')) =
        some ⟨b.fenLoop fenOrder 0, if b.side = .white then 'w' else 'b', b.fenFlags, b.fenEp,
          b.movecnt50, v⟩ ∧
      ((-2 ^ 31 ≤ b.moveno ∧ b.moveno < 2 ^ 31) → (' ' :: b.fenEp ++ ' ' :: showInt b.movecnt50 ++
        ' ' :: showInt b.moveno).length ≤ 19 → v = b.moveno) := by
  have hplain : Plain (b.fenLoop fenOrder 0) := by
    rw [fenOrder_eq]
    exact plain_fenLoop le_rfl fun _ => by omega
  have hlen : (b.fenLoop fenOrder 0).length ≤ 80 := by
    rw [fenOrder_eq]
    have := fenLoop_length (b := b) (n := 64) le_rfl 0
    have h0 := (fenRun_length 0).2 rfl
    omega
  have hclr : isSpace (if b.side = .white then 'w' else 'b') = false := by
    split <;> decide
  have htext : b.getFen.toList.takeWhile (fun c => c ≠ '\x00') =
      b.fenLoop fenOrder 0 ++ ' ' :: (if b.side = .white then 'w' else 'b') :: ' ' ::
        b.fenFlags ++ b.fenTail := by
    rw [Board.getFen, String.toList_ofList, List.takeWhile_eq_self_iff]
    intro c hc
    rw [decide_eq_true_eq]
    rcases List.mem_append.mp hc with hc | hc
    · rcases List.mem_append.mp hc with hc | hc
      · exact (hplain c hc).2
      · rcases List.mem_cons.mp hc with rfl | hc
        · decide
        rcases List.mem_cons.mp hc with rfl | hc
        · split <;> decide
        rcases List.mem_cons.mp hc with rfl | hc
        · decide
        · exact ((fenFlags_spec b).1 c hc).2
    · exact nul_not_mem_fenTail b hc
  rw [htext, Board.fenTail]
  exact scanFen_fields b.moveno ⟨hplain, hne, hlen⟩ hclr (fenFlags_spec b) (fenEp_spec b) hh

/-- **What `parse_fen` makes of the FEN of a board of the rules.** -/
theorem Sim.parseFen_getFen {pos : Position} (h : Sim b pos) (hv : Valid pos)
    (hep : ∀ e, b.epsq = some e → rnk e = rank3 ∨ rnk e = rank6) (honly : b.OnlyCastling)
    (hh : -2 ^ 31 ≤ b.movecnt50 ∧ b.movecnt50 < 2 ^ 31) :
    ∃ v, Board.parseFen b.getFen = .accepted { b with
        moveno := v
        hasCastled := .both false
        pceMovecnt := Vector.replicate 64 0#32 } ∧
      ((-2 ^ 31 ≤ b.moveno ∧ b.moveno < 2 ^ 31) → (' ' :: b.fenEp ++ ' ' :: showInt b.movecnt50 ++
        ' ' :: showInt b.moveno).length ≤ 19 → v = b.moveno) := by
  have hloop : placeLoop (b.fenLoop fenOrder 0) rank8 0 =
      ((fenFrom 64).filterMap (fenCall pos.man), true) := by
    rw [fenOrder_eq]
    exact placeLoop_fenLoop h.consistent le_rfl fun _ => by decide
  have hne : b.fenLoop fenOrder 0 ≠ [] := by
    intro e
    rw [e] at hloop
    obtain ⟨king, hk⟩ := hv.king_exists .white
    have hmem : Placing.mk (rnk king) (fil king) (.white, .king) ∈
        (fenFrom 64).filterMap (fenCall pos.man) :=
      List.mem_filterMap.mpr ⟨king, mem_fenFrom king, by rw [fenCall, hk]; rfl⟩
    have hnil : [] = (fenFrom 64).filterMap (fenCall pos.man) := congrArg Prod.fst hloop
    rw [← hnil] at hmem
    cases hmem
  obtain ⟨v, hscan, hfit⟩ := scanFen_getFen b hne hh
  refine ⟨v, ?_, hfit⟩
  obtain ⟨b0, hb0, hc0, hk0⟩ := placeAll_fenCall pos.man
  obtain ⟨hfresh, hflags, hepsq⟩ := placeAll_frame hb0 ⟨rfl, rfl⟩
  obtain ⟨hfresh, hflags', hking⟩ := hfresh.setSide b.side
  obtain ⟨b1, hb1, hfresh1, honly1, hf1⟩ := flagLoop_fenFlags hfresh (hflags'.trans hflags) b
  obtain ⟨hc1, hs1, he1⟩ := flagLoop_spec (hc0.setSide b.side) hb1
  have hb2 := setEpField_fenEp b1 hep
  generalize hb : (if b.epsq = none then b1.clearEpsq else b1.setEpsq b.epsq) = b2 at hb2
  obtain ⟨hc2, hs2, _⟩ := setEpField_spec hc1 hb2
  have hsame : b2.epsq = b.epsq ∧ b2.flags = b1.flags ∧ b2.Fresh := by
    rw [← hb]
    split
    · rename_i hn
      exact ⟨hn.symm, rfl, hfresh1.pceMovecnt, hfresh1.hasCastled⟩
    · exact ⟨rfl, rfl, hfresh1.pceMovecnt, hfresh1.hasCastled⟩
  obtain ⟨he2, hfl2, hfresh2⟩ := hsame
  have hclear : b0.epsq = none := hepsq
  have hsideOf : Board.sideOfChar (if b.side = .white then 'w' else 'b') = some b.side := by
    cases b.side <;> rfl
  have hfields : b0.setFields ⟨b.fenLoop fenOrder 0, if b.side = .white then 'w' else 'b',
      b.fenFlags, b.fenEp, b.movecnt50, v⟩ = some { b2 with movecnt50 := b.movecnt50, moveno := v } := by
    simp only [Board.setFields, hsideOf, Option.bind_eq_bind, Option.bind_some, hb1, hb2]
    rfl
  have hking2 : b2.king = b0.king := by rw [hs2.king, hs1.king, hking]
  have hside2 : b2.side = b.side := by rw [hs2.side, hs1.side, side_setSide]
  have hkings : b2.king = b.king := by
    refine PerColor.ext_get fun c => ?_
    obtain ⟨king, hk⟩ := hv.king_exists c
    rw [hking2]
    cases hg : b0.getKing c with
    | none => exact absurd hg (hk0 c king hk)
    | some king' =>
      rw [hv.king_unique _ _ _ (hc0.king c king' hg) hk] at hg
      exact hg.trans (h.king c king hk).symm
  have hflagsEq : b2.flags = b.flags := by
    rw [hfl2]
    exact flags_eq honly1 honly hf1
  have hboard : { b2 with movecnt50 := b.movecnt50, moveno := v } = { b with
      moveno := v
      hasCastled := .both false
      pceMovecnt := Vector.replicate 64 0#32 } := by
    rw [hc2.eq_of h.consistent hside2 hflagsEq he2 hkings, hfresh2.hasCastled, hfresh2.pceMovecnt]
  have hsim : Sim { b2 with movecnt50 := b.movecnt50, moveno := v } pos := by
    rw [hboard]
    have hc := h.consistent
    exact ⟨⟨hc.pos, hc.all, hc.rot, hc.king, hc.material, hc.hash, hc.pawnhash⟩, h.side, h.rights,
      h.ep, h.king⟩
  rw [Board.parseFen, hscan]
  simp only [Board.parseFenFields, hloop, hb0, if_true, hfields]
  rw [hsim.isValid hv, (hsim.isLegal (hv.king_exists _)).mpr hv.safe, ← hboard]
  rfl

/-! ### Runs -/

theorem Board.OnlyCastling.flagLoop (h : b.OnlyCastling) {cs : List Char}
    (hf : b.flagLoop cs = some b') : b'.OnlyCastling := by
  induction cs generalizing b with
  | nil =>
    cases hf
    exact h
  | cons c cs ih =>
    rw [Board.flagLoop] at hf
    split at hf
    · exact ih (h.setFlag _) hf
    split at hf
    · exact ih (h.setFlag _) hf
    split at hf
    · exact ih (h.setFlag _) hf
    split at hf
    · exact ih (h.setFlag _) hf
    split at hf
    · exact ih h hf
    · cases hf

/-- Accepted boards have castling flags only. -/
theorem onlyCastling_of_parseFen {s : String} (h : Board.parseFen s = .accepted b) :
    b.OnlyCastling := by
  obtain ⟨f, b0, _, hb0, hset, _⟩ := steps_of_accepted h
  simp only [Board.setFields, Option.bind_eq_bind, Option.bind_eq_some_iff, Option.pure_def,
    Option.some.injEq] at hset
  obtain ⟨c, _, b2, h2, b3, h3, rfl⟩ := hset
  obtain ⟨hfresh, hflags, _⟩ := placeAll_frame hb0 ⟨rfl, rfl⟩
  obtain ⟨_, hflags', _⟩ := hfresh.setSide c
  have honly : (b0.setSide c).OnlyCastling := by
    intro i hi
    rw [hflags', hflags] at hi
    change mem 0#32 i = true at hi
    rw [mem_zero] at hi
    cases hi
  have h2' := honly.flagLoop h2
  unfold Board.setEpField at h3
  simp only at h3
  split at h3
  · cases h3
    exact h2'
  split at h3
  · split at h3
    · cases h3
      exact h2'
    split at h3
    · cases h3
      exact h2'
    · cases h3
  · cases h3

theorem Board.OnlyCastling.makeMove (h : b.OnlyCastling) (mov : Move) :
    (b.makeMove mov).OnlyCastling := by
  have hcorner : ∀ {c : Board} (sq : Square), c.OnlyCastling → (c.clearCorner sq).OnlyCastling := by
    intro c sq hc
    unfold Board.clearCorner
    split
    · exact hc
    · exact hc.clearFlag _
  have h1 : (b.runOps (b.moveOps mov)).OnlyCastling := h.congr (sameState_runOps b _).flags
  have h2 : ((b.runOps (b.moveOps mov)).setCastled mov).OnlyCastling :=
    h1.congr (sameState_setCastled _ mov).1.flags
  have h3 : (((b.runOps (b.moveOps mov)).setCastled mov).clearCastling mov).OnlyCastling := by
    generalize (b.runOps (b.moveOps mov)).setCastled mov = c at h2
    have hking : (if mov.ptype = some .king then
        if c.side = .white then (c.clearFlag .wk).clearFlag .wq
        else (c.clearFlag .bk).clearFlag .bq else c).OnlyCastling := by
      split
      · split
        · exact (h2.clearFlag _).clearFlag _
        · exact (h2.clearFlag _).clearFlag _
      · exact h2
    unfold Board.clearCastling
    simp only
    generalize (if mov.ptype = some .king then
        if c.side = .white then (c.clearFlag .wk).clearFlag .wq
        else (c.clearFlag .bk).clearFlag .bq else c) = d at hking
    have hrook : (if mov.ptype = some .rook then d.clearCorner mov.fromSq else d).OnlyCastling := by
      split
      · exact hcorner _ hking
      · exact hking
    split
    · exact hcorner _ hrook
    · exact hrook
  show (((((b.runOps (b.moveOps mov)).setCastled mov).clearCastling mov).updateEpsq
    mov).updateCounters mov).OnlyCastling
  generalize ((b.runOps (b.moveOps mov)).setCastled mov).clearCastling mov = c at h3 ⊢
  refine h3.congr ?_
  show (c.updateEpsq mov).flags = c.flags
  unfold Board.updateEpsq
  split
  · split
    · rfl
    split <;> rfl
  · rfl

theorem Reached.onlyCastling (h : Reached b) : b.OnlyCastling := by
  induction h with
  | opening h => exact onlyCastling_of_parseFen h
  | move _ _ ih => exact ih.makeMove _

/-- **The FEN of a board of a game is read back as that board**, without its history. -/
theorem reached_fenRoundTrip (h : Reached b) (hh : 0 ≤ b.movecnt50 ∧ b.movecnt50 ≤ 100)
    (hm : 1 ≤ b.moveno ∧ b.moveno ≤ 99999) :
    Board.parseFen b.getFen = .accepted { b with
      hasCastled := .both false
      pceMovecnt := Vector.replicate 64 0#32 } := by
  obtain ⟨pos, hsim, hp⟩ := h.sim
  have hs := hp.sane
  have hep : ∀ e, b.epsq = some e → rnk e = rank3 ∨ rnk e = rank6 := by
    intro e he
    rw [hsim.ep] at he
    have hr := (hs.ep e he).rank
    cases hside : pos.side <;> rw [hside] at hr
    · exact Or.inr hr
    · exact Or.inl hr
  obtain ⟨v, hread, hfit⟩ := hsim.parseFen_getFen hs.toValid hep h.onlyCastling (by omega)
  have hlen : ∀ {i : Int} {n : Nat}, 0 < n → 0 ≤ i → i.natAbs < 10 ^ n → (showInt i).length ≤ n := by
    intro i n hn hi hlt
    rw [showInt, if_neg (by omega)]
    exact (Nat.length_toDigits_le_iff (by decide) hn).mpr hlt
  have h1 := hlen (n := 3) (by decide) hh.1 (by omega)
  have h2 := hlen (n := 5) (by decide) (by omega) (show b.moveno.natAbs < 10 ^ 5 by omega)
  have h3 := (fenEp_spec b).2.2
  have hv : v = b.moveno := by
    refine hfit (by omega) ?_
    simp only [List.length_append, List.length_cons]
    omega
  rw [hread, hv]

end Read

/-- What is read is printed again. -/
example : (@Board.parseFen sampleBuild openingFen).holds (fun b => b.getFen == openingFen) = true := by
  decide +kernel

/-- The FEN of the opening board is the opening FEN, and is read back. -/
theorem opening_fenRoundTrip : ∃ b, @Board.parseFen sampleBuild openingFen = .accepted b ∧
    @Board.parseFen sampleBuild b.getFen = .accepted b := by
  let _ := sampleBuild
  have hrun : (Board.parseFen openingFen).holds (fun b => decide (0 ≤ b.movecnt50 ∧
      b.movecnt50 ≤ 100 ∧ 1 ≤ b.moveno ∧ b.moveno ≤ 99999 ∧ b = { b with
        hasCastled := .both false
        pceMovecnt := Vector.replicate 64 0#32 })) = true := by
    decide +kernel
  obtain ⟨b, hb, hfresh⟩ := FenResult.holds_eq_true.mp hrun
  obtain ⟨h1, h2, h3, h4, heq⟩ := of_decide_eq_true hfresh
  refine ⟨b, hb, ?_⟩
  rw [reached_fenRoundTrip (.opening hb) ⟨h1, h2⟩ ⟨h3, h4⟩, ← heq]

end HoiChess.Chess
