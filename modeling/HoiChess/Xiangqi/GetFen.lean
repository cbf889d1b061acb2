import HoiChess.Chess.GetFen
import HoiChess.Xiangqi.Notation

/-!
# Writing a xiangqi FEN

As in chess: `get_fen` runs over the squares from the top rank down and counts empty squares, the
placement loop of `parse_fen` undoes it square by square (`placeLoop_fenLoop`), and `sscanf`
takes the four fields apart (`scanFen_getFen`).  The board that is read differs in the move
counters of the men only (`Sim.parseFen_getFen`), and its moves are read back from what is printed
of them (`reached_roundTrips`).
-/

namespace HoiChess.Xiangqi

open Grid Rules
open Chess (Color PerColor fenRun showInt Plain)

/-! ## `get_fen` -/

/-- `SQUARE(rnk, fil)` -/
def mkSquare (r : Fin 10) (f : Fin 9) : Square := ⟨r.val * 9 + f.val, by omega⟩

/-- The squares in the order of the two loops. -/
def fenOrder : List Square :=
  (List.finRange 10).reverse.flatMap fun r => (List.finRange 9).map fun f => mkSquare r f

namespace Board

variable (b : Board)

def fenLetter (sq : Square) (p : Piece) : Char :=
  if b.colorAt sq = some .white then pieceLetter p else (pieceLetter p).toLower

/-- The placement, from the squares that are left and the empty squares counted. -/
def fenLoop : List Square → Nat → List Char
  | [], _ => []
  | sq :: sqs, empty =>
    let (s, empty) :=
      match b.pieceAt sq with
      | none => ([], empty + 1)
      | some p => (fenRun empty ++ [b.fenLetter sq p], 0)
    if fil sq = 8 then s ++ fenRun empty ++ (if rnk sq ≠ 0 then ['/'] else []) ++ fenLoop sqs 0
    else s ++ fenLoop sqs empty

/-- `snprintf(s, 20, " %d %d", ..)` leaves at most 19 characters. -/
def fenTail : List Char := (' ' :: showInt b.movecnt50 ++ ' ' :: showInt b.moveno).take 19

/-- `get_fen` -/
def getFen : String :=
  String.ofList (b.fenLoop fenOrder 0 ++ ' ' :: (if b.side = .white then 'w' else 'b') :: b.fenTail)

end Board

/-! ## The placement -/

/-- The square after which `n` squares are left. -/
def fenSq (n : Nat) : Square := ⟨(n / 9 * 9 + (8 - n % 9)) % 90, Nat.mod_lt _ (by decide)⟩

/-- The last `n` squares. -/
def fenFrom : Nat → List Square
  | 0 => []
  | n + 1 => fenSq n :: fenFrom n

theorem fenOrder_eq : fenOrder = fenFrom 90 := by decide

theorem fenFrom_nodup : (fenFrom 90).Nodup := by decide

theorem mem_fenFrom : ∀ sq, sq ∈ fenFrom 90 := by decide

theorem fenSq_coords {n : Nat} (h : n < 90) : rnk (fenSq n) = n / 9 ∧ fil (fenSq n) = 8 - n % 9 := by
  unfold rnk fil fenSq
  simp only
  omega

theorem fenRun_digit : ∀ e : Fin 10, e.val ≠ 0 → (Char.ofNat ('0'.toNat + e.val)).isDigit = true ∧
    (Char.ofNat ('0'.toNat + e.val)).toNat - '0'.toNat = e.val := by decide

theorem fenPiece_letter (p : Piece) : fenPiece (pieceLetter p) = some (.white, p) ∧
    fenPiece (pieceLetter p).toLower = some (.black, p) := by
  cases p <;> decide

theorem fenPiece_man {c : Char} {m : Man} (h : fenPiece c = some m) : c.isDigit = false ∧ c ≠ '/' := by
  constructor
  · by_contra hd
    rw [fenPiece_of_isDigit (by simpa using hd)] at h
    cases h
  · rintro rfl
    cases h

section Loop

variable {s : List Char} {r : Int} {f : Nat} (hr : 0 ≤ r) (hf : f ≤ 9)

include hr hf

theorem placeLoop_fenRun {e : Nat} (he : e ≤ 9) :
    placeLoop (fenRun e ++ s) r f = placeLoop s r (f + e) := by
  unfold fenRun
  split
  · rename_i hne
    obtain ⟨hd, hv⟩ := fenRun_digit ⟨e, by omega⟩ hne
    rw [List.singleton_append, placeLoop, if_neg (by omega), if_pos hd, hv]
  · rename_i h0
    rw [not_not.mp h0]
    rfl

theorem placeLoop_letter {c : Char} {m : Man} (hm : fenPiece c = some m) :
    placeLoop (c :: s) r f =
      (⟨r, f, m⟩ :: (placeLoop s r (f + 1)).1, (placeLoop s r (f + 1)).2) := by
  obtain ⟨hd, hs⟩ := fenPiece_man hm
  rw [placeLoop, if_neg (by omega), if_neg (by simp [hd]), if_neg hs]
  simp only [hm]

theorem placeLoop_slash : placeLoop ('/' :: s) r f = placeLoop s (r - 1) 0 := by
  rw [placeLoop, if_neg (by omega)]
  rfl

end Loop

/-- The call for the man on a square. -/
def fenCall (man : Placement) (sq : Square) : Option Placing :=
  (man sq).map fun m => ⟨rnk sq, fil sq, m⟩

theorem sq_fenPlacing (sq : Square) (m : Man) :
    (Placing.mk (rnk sq) (fil sq) m).sq = some sq := by
  rw [Placing.sq_eq_some, Placing.index, square_val]
  push_cast
  rfl

/-- The calls set up the men of their squares. -/
theorem placed_fenCall (l : List Square) (man man' : Placement) (sq : Square) :
    placed man' (l.filterMap (fenCall man)) sq =
      if sq ∈ l then (man sq).or (man' sq) else man' sq := by
  induction l generalizing man' with
  | nil => rfl
  | cons t l ih =>
    cases hm : man t with
    | none =>
      rw [List.filterMap_cons_none (by rw [fenCall, hm]; rfl), ih]
      by_cases hst : sq = t
      · subst hst
        simp [hm]
      · simp [hst]
    | some m =>
      rw [List.filterMap_cons_some
        (show fenCall man t = some ⟨rnk t, fil t, m⟩ by rw [fenCall, hm]; rfl)]
      rw [placed_cons (sq_fenPlacing t m), ih]
      by_cases hst : sq = t
      · subst hst
        simp [hm]
      · simp [hst]

section Placement

variable [k : Keys] {b : Board} {man : Placement}

theorem Consistent.fenPiece_fenLetter (h : Consistent b man) {sq : Square} {m : Man}
    (hm : man sq = some m) : fenPiece (b.fenLetter sq m.2) = some m := by
  obtain ⟨c, p⟩ := m
  have hc : b.colorAt sq = some c := by
    rw [h.colors sq, hm]
    rfl
  rw [Board.fenLetter, hc]
  cases c with
  | white => exact (if_pos rfl).symm ▸ (fenPiece_letter p).1
  | black => exact (fenPiece_letter p).2

/-- **The placement loop undoes the printing loop**, from any square and any count on. -/
theorem placeLoop_fenLoop (h : Consistent b man) {n : Nat} (hn : n ≤ 90) {empty f : Nat} {r : Int}
    (hpos : 0 < n → r = ((n - 1) / 9 : Nat) ∧ f + empty = 8 - (n - 1) % 9) :
    placeLoop (b.fenLoop (fenFrom n) empty) r f = ((fenFrom n).filterMap (fenCall man), true) := by
  induction n generalizing empty f r with
  | zero => rfl
  | succ n ih =>
    obtain ⟨rfl, hf⟩ := hpos (by omega)
    rw [Nat.add_sub_cancel] at hf ⊢
    obtain ⟨hrnk, hfil⟩ := fenSq_coords (show n < 90 by omega)
    have hrest : ∀ g e, g + e = 9 - n % 9 →
        placeLoop (if fil (fenSq n) = 8 then
          fenRun e ++ ((if rnk (fenSq n) ≠ 0 then ['/'] else []) ++ b.fenLoop (fenFrom n) 0)
          else b.fenLoop (fenFrom n) e) ((n / 9 : Nat) : Int) g =
            ((fenFrom n).filterMap (fenCall man), true) := by
      intro g e hge
      by_cases h8 : n % 9 = 0
      · rw [if_pos (by omega), placeLoop_fenRun (by omega) (by omega) (by omega)]
        by_cases h0 : n / 9 = 0
        · obtain rfl : n = 0 := by omega
          rw [if_neg (by simp [hrnk])]
          rfl
        · rw [if_pos (by rw [hrnk]; exact h0), List.singleton_append,
            placeLoop_slash (by omega) (by omega)]
          exact ih (by omega) fun _ => ⟨by omega, by omega⟩
      · rw [if_neg (by omega)]
        exact ih (by omega) fun _ => ⟨by omega, by omega⟩
    have hloop : ∀ s e, (match b.pieceAt (fenSq n) with
        | none => ([], empty + 1)
        | some p => (fenRun empty ++ [b.fenLetter (fenSq n) p], 0)) = (s, e) →
        b.fenLoop (fenSq n :: fenFrom n) empty = s ++ if fil (fenSq n) = 8 then
          fenRun e ++ ((if rnk (fenSq n) ≠ 0 then ['/'] else []) ++ b.fenLoop (fenFrom n) 0)
          else b.fenLoop (fenFrom n) e := by
      intro s e he
      rw [Board.fenLoop, he]
      by_cases h8 : fil (fenSq n) = 8
      · simp only [if_pos h8, List.append_assoc]
      · simp only [if_neg h8]
    rw [fenFrom]
    have hp := h.pieces (fenSq n)
    cases hm : man (fenSq n) with
    | none =>
      rw [hm] at hp
      rw [hloop [] (empty + 1) (by rw [hp]; rfl), List.nil_append, hrest f (empty + 1) (by omega),
        List.filterMap_cons_none (by rw [fenCall, hm]; rfl)]
    | some m =>
      rw [hm] at hp
      rw [hloop (fenRun empty ++ [b.fenLetter (fenSq n) m.2]) 0 (by rw [hp]; rfl), List.append_assoc,
        placeLoop_fenRun (by omega) (by omega) (by omega), List.singleton_append,
        placeLoop_letter (by omega) (by omega) (h.fenPiece_fenLetter hm),
        hrest (f + empty + 1) 0 (by omega), List.filterMap_cons_some
          (show fenCall man (fenSq n) = some ⟨rnk (fenSq n), fil (fenSq n), m⟩ by rw [fenCall, hm]; rfl),
        hrnk, hfil, hf]

/-- **The placement field sets the men up again.** -/
theorem placeAll_fenCall (man : Placement) :
    ∃ b', Board.clear.placeAll ((fenFrom 90).filterMap (fenCall man)) = some b' ∧
      Consistent b' man ∧ KingSeen b' man := by
  have hfree : ∀ p ∈ (fenFrom 90).filterMap (fenCall man),
      ∃ sq, p.sq = some sq ∧ (none : Option Man) = none := by
    intro p hp
    obtain ⟨sq, _, hsq⟩ := List.mem_filterMap.mp hp
    obtain ⟨m, _, rfl⟩ := Option.map_eq_some_iff.mp hsq
    exact ⟨sq, sq_fenPlacing sq m, rfl⟩
  have hne : ((fenFrom 90).filterMap (fenCall man)).Pairwise fun p q => p.index ≠ q.index := by
    refine List.pairwise_filterMap.mpr (fenFrom_nodup.imp ?_)
    intro s t hne p hp q hq e
    obtain ⟨m, _, rfl⟩ := Option.map_eq_some_iff.mp hp
    obtain ⟨m', _, rfl⟩ := Option.map_eq_some_iff.mp hq
    have h1 := Placing.sq_eq_some.mp (sq_fenPlacing s m)
    have h2 := Placing.sq_eq_some.mp (sq_fenPlacing t m')
    exact hne (Fin.ext (by omega))
  obtain ⟨b', hb', hc, hk, _⟩ := placeAll_consistent .clear (fun c k hk => by cases hk) hfree hne
  have hman : placed (fun _ => none) ((fenFrom 90).filterMap (fenCall man)) = man := by
    funext sq
    rw [placed_fenCall, if_pos (mem_fenFrom sq), Option.or_none]
  rw [hman] at hc hk
  exact ⟨b', hb', hc, hk⟩

end Placement

/-! ## The fields -/

section Fields

variable {b : Board}

/-- The length of a placement field, from any square and any count on. -/
theorem fenLoop_length {n : Nat} (hn : n ≤ 90) (empty : Nat) :
    (b.fenLoop (fenFrom n) empty).length ≤ n + (n + 8) / 9 + (fenRun empty).length := by
  have h0 := (Chess.fenRun_length 0).2 rfl
  induction n generalizing empty with
  | zero => simp [fenFrom, Board.fenLoop]
  | succ n ih =>
    obtain ⟨_, hfil⟩ := fenSq_coords (show n < 90 by omega)
    have hslash : (if rnk (fenSq n) ≠ 0 then ['/'] else []).length ≤ 1 := by
      split <;> simp
    have hnext := ih (by omega) 0
    have hcount := ih (by omega) (empty + 1)
    have hrun := Chess.fenRun_length (empty + 1)
    rw [fenFrom, Board.fenLoop]
    cases b.pieceAt (fenSq n) with
    | none =>
      by_cases h8 : fil (fenSq n) = 8
      · simp only [if_pos h8, List.length_append, List.length_nil]
        omega
      · simp only [if_neg h8, List.length_append, List.length_nil]
        omega
    | some p =>
      by_cases h8 : fil (fenSq n) = 8
      · simp only [if_pos h8, List.length_append, List.length_cons, List.length_nil]
        omega
      · simp only [if_neg h8, List.length_append, List.length_cons, List.length_nil]
        omega

theorem plain_fenRun {e : Nat} (he : e ≤ 9) : Plain (fenRun e) := by
  have hall : ∀ e : Fin 10,
      (fenRun e.val).all (fun c => !Chess.isSpace c && c != '\x00') = true := by
    decide
  exact Chess.plain_of_all (hall ⟨e, by omega⟩)

theorem plain_fenLetter (b : Board) (sq : Square) (p : Piece) : Plain [b.fenLetter sq p] := by
  unfold Board.fenLetter
  split
  · cases p <;> exact Chess.plain_of_all (by decide)
  · cases p <;> exact Chess.plain_of_all (by decide)

/-- No blank is among the characters of a placement field. -/
theorem plain_fenLoop {n : Nat} (hn : n ≤ 90) {empty : Nat}
    (he : 0 < n → empty ≤ 8 - (n - 1) % 9) : Plain (b.fenLoop (fenFrom n) empty) := by
  induction n generalizing empty with
  | zero => exact fun c hc => by cases hc
  | succ n ih =>
    have he := he (by omega)
    rw [Nat.add_sub_cancel] at he
    obtain ⟨_, hfil⟩ := fenSq_coords (show n < 90 by omega)
    have hend : Plain (if rnk (fenSq n) ≠ 0 then ['/'] else []) := by
      split
      · exact Chess.plain_of_all (by decide)
      · exact fun c hc => by cases hc
    rw [fenFrom, Board.fenLoop]
    cases b.pieceAt (fenSq n) with
    | none =>
      by_cases h8 : fil (fenSq n) = 8
      · simp only [if_pos h8, List.nil_append]
        exact ((plain_fenRun (by omega)).append hend).append (ih (by omega) fun _ => by omega)
      · simp only [if_neg h8, List.nil_append]
        exact ih (by omega) fun _ => by omega
    | some p =>
      have hman := (plain_fenRun (show empty ≤ 9 by omega)).append (plain_fenLetter b (fenSq n) p)
      by_cases h8 : fil (fenSq n) = 8
      · simp only [if_pos h8]
        exact ((hman.append (plain_fenRun (by omega))).append hend).append
          (ih (by omega) fun _ => by omega)
      · simp only [if_neg h8]
        exact hman.append (ih (by omega) fun _ => by omega)

/-- **`get_fen` keeps within its buffer**, on any board. -/
theorem getFen_fits (b : Board) : b.getFen.length < 128 := by
  have hloop := fenLoop_length (b := b) (n := 90) le_rfl 0
  have h0 := (Chess.fenRun_length 0).2 rfl
  have htail : b.fenTail.length ≤ 19 := List.length_take_le _ _
  rw [Board.getFen, String.length_ofList, fenOrder_eq, List.length_append, List.length_cons,
    List.length_cons]
  omega

/-- **`sscanf` finds the four fields that were printed.** -/
theorem scanFen_fields {pos : List Char} {clr : Char} {hmc fmc : Int}
    (hpos : Plain pos ∧ pos ≠ [] ∧ pos.length ≤ 160) (hclr : Chess.isSpace clr = false)
    (hh : -2 ^ 31 ≤ hmc ∧ hmc < 2 ^ 31) (hf : -2 ^ 31 ≤ fmc ∧ fmc < 2 ^ 31) :
    scanFen (pos ++ ' ' :: clr :: (' ' :: showInt hmc ++ ' ' :: showInt fmc)) =
      some ⟨pos, clr, hmc, fmc⟩ := by
  have hword : ∀ t, Chess.scanWord 160 (pos ++ ' ' :: t) = some (pos, ' ' :: t) :=
    fun t => Chess.scanWord_plain hpos.1 hpos.2.1 hpos.2.2 false
  have hchar : ∀ t, Chess.scanChar (' ' :: clr :: t) = some (clr, t) := by
    intro t
    unfold Chess.scanChar
    rw [List.dropWhile_cons_of_pos (by decide), List.dropWhile_cons_of_neg (by simp [hclr])]
  have hfirst : ∀ t, Chess.scanInt (' ' :: showInt hmc ++ ' ' :: t) = some (hmc, ' ' :: t) :=
    fun t => Chess.scanInt_showInt hh rfl
  have hsecond : Chess.scanInt (' ' :: showInt fmc) = some (fmc, []) := by
    have := Chess.scanInt_showInt hf (t := []) rfl
    rwa [List.append_nil] at this
  unfold scanFen
  rw [hword]
  simp only [Option.bind_eq_bind, Option.bind_some, hchar, hfirst, hsecond]
  rfl

/-- **The fields of a FEN that is written**, of a board with a man on it. -/
theorem scanFen_getFen (b : Board) (hne : b.fenLoop fenOrder 0 ≠ [])
    (hh : 0 ≤ b.movecnt50 ∧ b.movecnt50 ≤ 99999) (hf : 0 ≤ b.moveno ∧ b.moveno ≤ 99999) :
    scanFen (b.getFen.toList.takeWhile (fun c => c ≠ '\x00')) =
      some ⟨b.fenLoop fenOrder 0, if b.side = .white then 'w' else 'b', b.movecnt50, b.moveno⟩ := by
  have hplain : Plain (b.fenLoop fenOrder 0) := by
    rw [fenOrder_eq]
    exact plain_fenLoop le_rfl fun _ => by omega
  have hlen : (b.fenLoop fenOrder 0).length ≤ 160 := by
    rw [fenOrder_eq]
    have := fenLoop_length (b := b) (n := 90) le_rfl 0
    have h0 := (Chess.fenRun_length 0).2 rfl
    omega
  have hclr : Chess.isSpace (if b.side = .white then 'w' else 'b') = false ∧
      (if b.side = .white then 'w' else 'b') ≠ '\x00' := by
    split <;> decide
  have hdigits : ∀ {i : Int}, 0 ≤ i → i ≤ 99999 → (showInt i).length ≤ 5 := by
    intro i h0 h9
    rw [showInt, if_neg (by omega)]
    exact (Nat.length_toDigits_le_iff (by decide) (by decide)).mpr (by omega)
  have htail : b.fenTail = ' ' :: showInt b.movecnt50 ++ ' ' :: showInt b.moveno := by
    have h1 := hdigits hh.1 hh.2
    have h2 := hdigits hf.1 hf.2
    refine List.take_of_length_le ?_
    simp only [List.length_append, List.length_cons]
    omega
  have htext : b.getFen.toList.takeWhile (fun c => c ≠ '\x00') =
      b.fenLoop fenOrder 0 ++ ' ' :: (if b.side = .white then 'w' else 'b') ::
        (' ' :: showInt b.movecnt50 ++ ' ' :: showInt b.moveno) := by
    rw [Board.getFen, String.toList_ofList, htail, List.takeWhile_eq_self_iff]
    intro c hc
    rw [decide_eq_true_eq]
    rcases List.mem_append.mp hc with hc | hc
    · exact (hplain c hc).2
    rcases List.mem_cons.mp hc with rfl | hc
    · decide
    rcases List.mem_cons.mp hc with rfl | hc
    · exact hclr.2
    rcases List.mem_append.mp hc with hc | hc
    · rcases List.mem_cons.mp hc with rfl | hc
      · decide
      · exact Chess.nul_not_mem_showInt hc
    · rcases List.mem_cons.mp hc with rfl | hc
      · decide
      · exact Chess.nul_not_mem_showInt hc
  rw [htext]
  exact scanFen_fields ⟨hplain, hne, hlen⟩ hclr.1 (by omega) (by omega)

end Fields

/-! ## The board that is read -/

section Read

variable [k : Keys] {b b' : Board} {man : Placement} {pos : Position}

/-- **The redundant fields follow from the men and the side.** -/
theorem Consistent.eq_of (h : Consistent b man) (h' : Consistent b' man) (hside : b.side = b'.side)
    (hking : b.king = b'.king) :
    b = { b' with moveno := b.moveno, movecnt50 := b.movecnt50, pceMovecnt := b.pceMovecnt } := by
  have hpieces : b.positionPieces = b'.positionPieces := funext fun sq => by
    rw [show b.positionPieces sq = _ from h.pieces sq, show b'.positionPieces sq = _ from h'.pieces sq]
  have hcolors : b.positionColors = b'.positionColors := funext fun sq => by
    rw [show b.positionColors sq = _ from h.colors sq, show b'.positionColors sq = _ from h'.colors sq]
  have hmat : b.material = b'.material :=
    PerColor.ext_get fun c => by rw [h.material, h'.material]
  have hhash : b.hashkey = b'.hashkey := by rw [h.hash, h'.hash, hside]
  have hpawn : b.pawnhashkey = b'.pawnhashkey := by rw [h.pawnhash, h'.pawnhash, hside]
  cases b
  cases b'
  cases hside
  cases hpieces
  cases hcolors
  cases hking
  cases hmat
  cases hhash
  cases hpawn
  rfl

/-- **`parse_fen` sets up the board whose FEN was written**, without its history. -/
theorem Sim.parseFen_getFen (h : Sim b pos) (hs : Sane pos)
    (hh : 0 ≤ b.movecnt50 ∧ b.movecnt50 ≤ 99999) (hf : 0 ≤ b.moveno ∧ b.moveno ≤ 99999) :
    ∃ b', Board.parseFen b.getFen = .accepted b' ∧ { b' with pceMovecnt := b.pceMovecnt } = b := by
  have hloop : placeLoop (b.fenLoop fenOrder 0) 9 0 =
      ((fenFrom 90).filterMap (fenCall pos.man), true) := by
    rw [fenOrder_eq]
    exact placeLoop_fenLoop h.consistent le_rfl fun _ => by decide
  have hne : b.fenLoop fenOrder 0 ≠ [] := by
    intro e
    rw [e] at hloop
    obtain ⟨king, hk⟩ := hs.king_exists .white
    have hmem : Placing.mk (rnk king) (fil king) (.white, .king) ∈
        (fenFrom 90).filterMap (fenCall pos.man) :=
      List.mem_filterMap.mpr ⟨king, mem_fenFrom king, by rw [fenCall, hk]; rfl⟩
    have hnil : [] = (fenFrom 90).filterMap (fenCall pos.man) := congrArg Prod.fst hloop
    rw [← hnil] at hmem
    cases hmem
  obtain ⟨b0, hb0, hc0, hk0⟩ := placeAll_fenCall pos.man
  obtain ⟨_, _, hking, hside⟩ := b0.setSide_frame b.side
  have hc1 := hc0.setSide b.side
  have hkings : (b0.setSide b.side).king = b.king := by
    refine PerColor.ext_get fun c => ?_
    obtain ⟨king, hk⟩ := hs.king_exists c
    rw [hking]
    cases hg : b0.getKing c with
    | none => exact absurd hg (hk0 c king hk)
    | some king' =>
      rw [hs.king_unique _ _ _ (hc0.king c king' hg) hk] at hg
      exact hg.trans (h.king c king hk).symm
  have hsim : Sim { b0.setSide b.side with movecnt50 := b.movecnt50, moveno := b.moveno } pos := by
    refine ⟨⟨hc1.pieces, hc1.colors, hc1.king, hc1.material, hc1.hash, hc1.pawnhash⟩,
      hside.trans h.side, fun c king hk => ?_⟩
    exact (congrArg (fun x => x.get c) hkings).trans (h.king c king hk)
  have hboard := hc1.eq_of h.consistent hside hkings
  refine ⟨{ b0.setSide b.side with movecnt50 := b.movecnt50, moveno := b.moveno }, ?_, ?_⟩
  · have hsideOf : Chess.Board.sideOfChar (if b.side = .white then 'w' else 'b') = some b.side := by
      cases b.side <;> rfl
    rw [Board.parseFen, scanFen_getFen b hne hh hf]
    simp only [Board.parseFenFields, hloop, hb0, if_true, hsideOf]
    exact hsim.checked hs
  · rw [hboard]

end Read

/-! ## Runs -/

section Runs

variable [Keys] {b : Board}

/-- The clocks of a board that is read are those of the text. -/
theorem clocks_of_parseFenFields {f : FenFields} (h : Board.parseFenFields f = .accepted b) :
    b.movecnt50 = f.hmc ∧ b.moveno = f.fmc := by
  unfold Board.parseFenFields at h
  dsimp only at h
  split at h
  · cases h
  split at h
  · split at h
    · cases h
    · rw [eq_of_checked h]
      exact ⟨rfl, rfl⟩
  · cases h

/-- What is printed of a board and of its legal moves is read back. -/
structure RoundTrips (b : Board) : Prop where
  fits : b.getFen.length < 128
  fen : ∃ b', Board.parseFen b.getFen = .accepted b' ∧ { b' with pceMovecnt := b.pceMovecnt } = b
  san : ∀ m ∈ b.legalMoves.moves, b.parseMove (m.san b 0) false = m
  str : ∀ m ∈ b.legalMoves.moves, b.parseMove m.str false = m
  apart : ∀ m ∈ b.legalMoves.moves, ∀ m' ∈ b.legalMoves.moves, ∀ s, m.Shown b s → m'.Shown b s → m = m'

/-- **Boards of a game and their moves are read back**, the move counters of the men apart. -/
theorem reached_roundTrips (h : Reached b) (hh : 0 ≤ b.movecnt50 ∧ b.movecnt50 ≤ 99999)
    (hf : 0 ≤ b.moveno ∧ b.moveno ≤ 99999) : RoundTrips b := by
  obtain ⟨pos, hsim, hp⟩ := h.sim
  have hs := hp.sane
  exact {
    fits := getFen_fits b
    fen := hsim.parseFen_getFen hs hh hf
    san := fun m hm => hsim.parseMove_shown hs hm (Or.inr rfl)
    str := fun m hm => hsim.parseMove_shown hs hm (Or.inl rfl)
    apart := fun m hm m' hm' s hs1 hs2 => hsim.legal_eq_of_shown hs hm hm' hs1 hs2 }

end Runs

/-- The opening board and its moves. -/
theorem roundTrips_opening : ∃ b, @Board.parseFen sampleKeys openingFen = .accepted b ∧
    @RoundTrips sampleKeys b := by
  let _ := sampleKeys
  obtain ⟨b, hb, _⟩ := parseFen_opening
  have hread : Board.parseFenFields openingFields = .accepted b := by
    rw [← hb, Board.parseFen, scanFen_openingFen]
  obtain ⟨hh, hf⟩ := clocks_of_parseFenFields hread
  refine ⟨b, hb, reached_roundTrips (.opening hb) ?_ ?_⟩
  · rw [hh]
    decide
  · rw [hf]
    decide

end HoiChess.Xiangqi
