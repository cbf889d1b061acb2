import HoiChess.Chess.Listed

/-!
# Reading a FEN

`parse_fen` scans six fields with `sscanf`, places the men while it reads the
first one, then reads side, castling letters and en passant square, and
accepts the position if `is_valid` and `is_legal` hold.  `placeLoop` keeps
every call of `place_piece` with the rank and file it was read for, so that
one can speak about calls on a wrong square.  A call off the board has no
defined outcome in the program; that is `FenResult.undefined`.
-/

namespace HoiChess.Chess

open WordSet Grid Rules

/-! ## `sscanf(s, "%80s %c %4s %2s %d %d", ..)` -/

/-- `isspace` in the C locale. -/
def isSpace (c : Char) : Bool :=
  c = ' ' || c = '\t' || c = '\n' || c = '\x0b' || c = '\x0c' || c = '\r'

/-- `%<n>s`: at most `n` characters up to the next white space. -/
def scanWord (n : Nat) (s : List Char) : Option (List Char × List Char) :=
  let s := s.dropWhile isSpace
  let w := (s.takeWhile (fun c => !isSpace c)).take n
  if w = [] then none else some (w, s.drop w.length)

/-- `%c` after a blank in the format. -/
def scanChar (s : List Char) : Option (Char × List Char) :=
  match s.dropWhile isSpace with
  | [] => none
  | c :: s => some (c, s)

/-- Conversion to `long`, which saturates, and then to `int`. -/
def storeInt (v : Int) : Int :=
  (max (-2 ^ 63) (min v (2 ^ 63 - 1))).bmod (2 ^ 32)

def digitsValue (ds : List Char) : Nat :=
  ds.foldl (fun n c => n * 10 + (c.toNat - '0'.toNat)) 0

/-- `%d` -/
def scanInt (s : List Char) : Option (Int × List Char) :=
  let s := s.dropWhile isSpace
  let (negative, s) :=
    match s with
    | '-' :: t => (true, t)
    | '+' :: t => (false, t)
    | _ => (false, s)
  let ds := s.takeWhile Char.isDigit
  if ds = [] then none
  else
    let v : Int := digitsValue ds
    some (storeInt (if negative then -v else v), s.drop ds.length)

structure FenFields where
  pos : List Char
  clr : Char
  flg : List Char
  ep : List Char
  hmc : Int
  fmc : Int
  deriving DecidableEq

/-- The six conversions; anything less than six is a failure. -/
def scanFen (s : List Char) : Option FenFields := do
  let (pos, s) ← scanWord 80 s
  let (clr, s) ← scanChar s
  let (flg, s) ← scanWord 4 s
  let (ep, s) ← scanWord 2 s
  let (hmc, s) ← scanInt s
  let (fmc, _) ← scanInt s
  return ⟨pos, clr, flg, ep, hmc, fmc⟩

/-! ## The placement field -/

def fenPiece : Char → Option Man
  | 'P' => some (.white, .pawn)
  | 'N' => some (.white, .knight)
  | 'B' => some (.white, .bishop)
  | 'R' => some (.white, .rook)
  | 'Q' => some (.white, .queen)
  | 'K' => some (.white, .king)
  | 'p' => some (.black, .pawn)
  | 'n' => some (.black, .knight)
  | 'b' => some (.black, .bishop)
  | 'r' => some (.black, .rook)
  | 'q' => some (.black, .queen)
  | 'k' => some (.black, .king)
  | _ => none

def fenDigit : Char → Option Nat
  | '8' => some 8
  | '7' => some 7
  | '6' => some 6
  | '5' => some 5
  | '4' => some 4
  | '3' => some 3
  | '2' => some 2
  | '1' => some 1
  | _ => none

/-- A call `place_piece(SQUARE(rnk, fil), ..)`. -/
structure Placing where
  rnk : Int
  fil : Nat
  man : Man
  deriving DecidableEq, Repr

/-- `SQUARE(rnk, fil)` -/
def Placing.index (p : Placing) : Int := p.rnk * 8 + p.fil

/-- The square of the call, if its index is one. -/
def Placing.sq (p : Placing) : Option Square :=
  if h : 0 ≤ p.index ∧ p.index < 64 then some ⟨p.index.toNat, by omega⟩ else none

/-- `while (*p)`: the calls made, and whether the field was read to its end. -/
def placeLoop : List Char → Int → Nat → List Placing × Bool
  | [], _, _ => ([], true)
  | c :: cs, rnk, fil =>
    if fil > 7 + 1 ∨ rnk < 0 then ([], false)
    else
      match fenPiece c with
      | some m =>
        let (l, ok) := placeLoop cs rnk (fil + 1)
        (⟨rnk, fil, m⟩ :: l, ok)
      | none =>
        match fenDigit c with
        | some n => placeLoop cs rnk (fil + n)
        | none => if c = '/' then placeLoop cs (rnk - 1) 0 else ([], false)

inductive FenResult where
  | rejected
  | accepted (b : Board)
  | undefined
  deriving DecidableEq

/-- The text is accepted, with a board that passes the test. -/
def FenResult.holds (test : Board → Bool) : FenResult → Bool
  | accepted b => test b
  | _ => false

theorem FenResult.holds_eq_true {test : Board → Bool} {r : FenResult} :
    r.holds test = true ↔ ∃ b, r = .accepted b ∧ test b = true := by
  cases r <;> simp [holds]

namespace Board

variable [Build]

/-- The board after the calls, unless one of them is off the board. -/
def placeAll (b : Board) : List Placing → Option Board
  | [] => some b
  | p :: ps =>
    match p.sq with
    | none => none
    | some sq => placeAll (b.placePiece sq p.man.1 p.man.2) ps

/-- `while (*p)` over the castling letters. -/
def flagLoop (b : Board) : List Char → Option Board
  | [] => some b
  | c :: cs =>
    if c = 'K' then flagLoop (b.setFlag .wk) cs
    else if c = 'Q' then flagLoop (b.setFlag .wq) cs
    else if c = 'k' then flagLoop (b.setFlag .bk) cs
    else if c = 'q' then flagLoop (b.setFlag .bq) cs
    else if c = '-' then flagLoop b cs
    else none

/-- The two characters `ep[0]` and `ep[1]`, of which the second may be the terminator. -/
def setEpField (b : Board) (ep : List Char) : Option Board :=
  let c0 := ep.getD 0 '\x00'
  let c1 := ep.getD 1 '\x00'
  if c0 = '-' then some b.clearEpsq
  else
    let f : Int := c0.toNat - 'a'.toNat
    let r : Int := c1.toNat - '1'.toNat
    if h : 0 ≤ f ∧ f ≤ 7 then
      if r = rank3 then some (b.setEpsq (some (mkSquare 2 ⟨f.toNat, by omega⟩)))
      else if r = rank6 then some (b.setEpsq (some (mkSquare 5 ⟨f.toNat, by omega⟩)))
      else none
    else none

def sideOfChar (c : Char) : Option Color :=
  if c = 'w' then some .white else if c = 'b' then some .black else none

/-- The fields after the placement, read in their order onto the board. -/
def setFields (b : Board) (f : FenFields) : Option Board := do
  let c ← sideOfChar f.clr
  let b ← (b.setSide c).flagLoop f.flg
  let b ← b.setEpField f.ep
  return { b with movecnt50 := f.hmc, moveno := f.fmc }

def parseFenFields (f : FenFields) : FenResult :=
  let (ps, complete) := placeLoop f.pos rank8 0
  match clear.placeAll ps with
  | none => .undefined
  | some b =>
    if complete then
      match b.setFields f with
      | none => .rejected
      | some b => if b.isValid && b.isLegal then .accepted b else .rejected
    else .rejected

/-- `parse_fen`; the text ends at its first NUL. -/
def parseFen (s : String) : FenResult :=
  match scanFen (s.toList.takeWhile (fun c => c ≠ '\x00')) with
  | none => .rejected
  | some f => parseFenFields f

end Board

def openingFen : String := "rnbqkbnr/pppppppp/8/8/8/8/PPPPPPPP/RNBQKBNR w KQkq - 0 1"

/-! ## The calls of `place_piece` -/

/-- Every call finds its square on the board and empty. -/
def CallsOk [Build] : Board → List Placing → Prop
  | _, [] => True
  | b, p :: ps => ∃ sq, p.sq = some sq ∧ (PieceOp.place sq p.man.1 p.man.2).Ok b ∧
      CallsOk (b.placePiece sq p.man.1 p.man.2) ps

theorem Placing.sq_eq_some {p : Placing} {sq : Square} :
    p.sq = some sq ↔ p.index = (sq.val : Int) := by
  unfold Placing.sq
  have hs := sq.isLt
  constructor
  · intro h
    split at h
    · cases h
      simp only
      omega
    · cases h
  · intro h
    rw [dif_pos (by omega)]
    refine congrArg some (Fin.ext ?_)
    simp only
    omega

/-- Two calls in the order in which the field is read: the next call is for a
later file or a lower rank, and nothing is read after the ninth file. -/
def Placing.Before (p q : Placing) : Prop :=
  p.fil ≤ 7 ∧ (q.rnk < p.rnk ∨ (q.rnk = p.rnk ∧ p.fil < q.fil))

/-- Past the ninth file nothing is read. -/
theorem placeLoop_past {cs : List Char} {rnk : Int} {fil : Nat} (h : 8 < fil) :
    (placeLoop cs rnk fil).1 = [] := by
  cases cs with
  | nil => rfl
  | cons c cs => rw [placeLoop, if_pos (Or.inl (by omega))]

/-- **Where the calls of the placement loop can be.** -/
theorem placeLoop_spec (cs : List Char) (rnk : Int) (fil : Nat) :
    (∀ p ∈ (placeLoop cs rnk fil).1, 0 ≤ p.rnk ∧ p.fil ≤ 8 ∧
      (p.rnk < rnk ∨ (p.rnk = rnk ∧ fil ≤ p.fil))) ∧
    (placeLoop cs rnk fil).1.Pairwise Placing.Before := by
  induction cs generalizing rnk fil with
  | nil => simp [placeLoop]
  | cons c cs ih =>
    rw [placeLoop]
    split
    · simp
    · rename_i hb
      split
      · rename_i m _
        obtain ⟨h1, h2⟩ := ih rnk (fil + 1)
        constructor
        · intro p hp
          rcases List.mem_cons.mp hp with rfl | hp
          · refine ⟨?_, ?_, Or.inr ⟨rfl, le_rfl⟩⟩ <;> dsimp only <;> omega
          · have := h1 p hp
            omega
        · refine List.pairwise_cons.mpr ⟨?_, h2⟩
          intro q hq
          have hq1 := h1 q hq
          have h9 : ¬ 8 < fil + 1 := by
            intro h9
            rw [placeLoop_past h9] at hq
            cases hq
          simp only [Placing.Before]
          omega
      · split
        · rename_i n _
          obtain ⟨h1, h2⟩ := ih rnk (fil + n)
          exact ⟨fun p hp => by have := h1 p hp; omega, h2⟩
        · split
          · obtain ⟨h1, h2⟩ := ih (rnk - 1) 0
            exact ⟨fun p hp => by have := h1 p hp; omega, h2⟩
          · simp

/-- Two calls on the same square: the later one is for the ninth file. -/
theorem Placing.Before.index_ne {p q : Placing} (h : p.Before q) (hq : q.fil ≤ 7) :
    p.index ≠ q.index := by
  obtain ⟨h1, h2⟩ := h
  unfold Placing.index
  omega

/-- The placement after a list of calls. -/
def placed (man : Placement) (ps : List Placing) : Placement :=
  ps.foldl (fun man p => match p.sq with
    | none => man
    | some sq => Function.update man sq (some p.man)) man

/-- A call with a square places its man there. -/
theorem placed_cons {man : Placement} {p : Placing} {sq : Square} (h : p.sq = some sq)
    (ps : List Placing) :
    placed man (p :: ps) = placed (Function.update man sq (some p.man)) ps := by
  rw [placed, List.foldl_cons, h]
  rfl

theorem mem_placed {man : Placement} {ps : List Placing} {p : Placing} {sq : Square}
    (hp : p ∈ ps) (hsq : p.sq = some sq) (hne : ps.Pairwise (fun p q => p.index ≠ q.index)) :
    placed man ps sq = some p.man := by
  induction ps generalizing man with
  | nil => cases hp
  | cons q ps ih =>
    rw [List.pairwise_cons] at hne
    rw [placed, List.foldl_cons]
    rcases List.mem_cons.mp hp with rfl | hp
    · rw [hsq]
      have hkeep : ∀ (l : List Placing) (man : Placement), (∀ q ∈ l, p.index ≠ q.index) →
          placed man l sq = man sq := by
        intro l
        induction l with
        | nil => intro man _; rfl
        | cons q l ihl =>
          intro man h
          rw [placed, List.foldl_cons]
          have hl := fun m => ihl m (fun q hq => h q (List.mem_cons_of_mem _ hq))
          cases hq : q.sq with
          | none => exact hl man
          | some t =>
            refine (hl _).trans (Function.update_of_ne ?_ _ _)
            rintro rfl
            have e1 := Placing.sq_eq_some.mp hsq
            have e2 := Placing.sq_eq_some.mp hq
            exact h q List.mem_cons_self (by omega)
      exact (hkeep ps _ hne.1).trans (Function.update_self _ _ _)
    · exact ih hp hne.2

section Calls

variable [Build]

/-- A man that is placed and whether its king square is known. -/
def KingSeen (b : Board) (man : Placement) : Prop :=
  ∀ c k, man k = some (c, .king) → b.getKing c ≠ none

theorem KingSeen.placePiece {b : Board} {man : Placement} (h : KingSeen b man) (sq : Square)
    (c : Color) (p : Piece) :
    KingSeen (b.placePiece sq c p) (Function.update man sq (some (c, p))) := by
  intro d k hk
  change (if p = .king then b.king.set c (some sq) else b.king).get d ≠ none
  by_cases hp : p = .king
  · rw [if_pos hp, PerColor.get_set]
    split
    · exact Option.some_ne_none _
    · rename_i hc
      apply h d k
      rwa [Function.update_of_ne] at hk
      rintro rfl
      rw [Function.update_self] at hk
      exact hc (congrArg Prod.fst (Option.some.inj hk))
  · rw [if_neg hp]
    apply h d k
    rwa [Function.update_of_ne] at hk
    rintro rfl
    rw [Function.update_self] at hk
    exact hp (congrArg Prod.snd (Option.some.inj hk))

/-- **A run of good calls builds a consistent board.** -/
theorem placeAll_consistent {b : Board} {man : Placement} (h : Consistent b man)
    (hk : KingSeen b man) {ps : List Placing} (hok : CallsOk b ps) :
    ∃ b', b.placeAll ps = some b' ∧ Consistent b' (placed man ps) ∧ KingSeen b' (placed man ps) := by
  induction ps generalizing b man with
  | nil => exact ⟨b, rfl, h, hk⟩
  | cons p ps ih =>
    obtain ⟨sq, hsq, hop, hrest⟩ := hok
    have hnone : man sq = none := (PieceOp.ok_iff h _).mp hop
    obtain ⟨b', hb', hc, hks⟩ := ih (h.placePiece p.man.1 p.man.2 hnone)
      (hk.placePiece sq p.man.1 p.man.2) hrest
    refine ⟨b', ?_, ?_, ?_⟩
    · rw [Board.placeAll, hsq]
      exact hb'
    · rw [placed_cons hsq]
      exact hc
    · rw [placed_cons hsq]
      exact hks

/-- **The calls are good exactly if their squares exist and differ.** -/
theorem callsOk_iff {b : Board} {man : Placement} (h : Consistent b man) (ps : List Placing) :
    CallsOk b ps ↔ (∀ p ∈ ps, ∃ sq, p.sq = some sq ∧ man sq = none) ∧
      ps.Pairwise (fun p q => p.index ≠ q.index) := by
  induction ps generalizing b man with
  | nil => simp [CallsOk]
  | cons p ps ih =>
    rw [CallsOk, List.pairwise_cons]
    constructor
    · rintro ⟨sq, hsq, hop, hrest⟩
      have hnone : man sq = none := (PieceOp.ok_iff h _).mp hop
      obtain ⟨h1, h2⟩ := (ih (h.placePiece p.man.1 p.man.2 hnone)).mp hrest
      refine ⟨?_, ?_, h2⟩
      · intro q hq
        rcases List.mem_cons.mp hq with rfl | hq
        · exact ⟨sq, hsq, hnone⟩
        · obtain ⟨t, ht, hm⟩ := h1 q hq
          refine ⟨t, ht, ?_⟩
          rwa [Function.update_of_ne] at hm
          rintro rfl
          rw [Function.update_self] at hm
          cases hm
      · intro q hq e
        obtain ⟨t, ht, hm⟩ := h1 q hq
        have : t = sq := by
          have e1 := Placing.sq_eq_some.mp hsq
          have e2 := Placing.sq_eq_some.mp ht
          exact Fin.ext (by omega)
        rw [this, Function.update_self] at hm
        cases hm
    · rintro ⟨h1, h2, h3⟩
      obtain ⟨sq, hsq, hnone⟩ := h1 p List.mem_cons_self
      refine ⟨sq, hsq, (PieceOp.ok_iff h _).mpr hnone,
        (ih (h.placePiece p.man.1 p.man.2 hnone)).mpr ⟨?_, h3⟩⟩
      intro q hq
      obtain ⟨t, ht, hm⟩ := h1 q (List.mem_cons_of_mem _ hq)
      refine ⟨t, ht, ?_⟩
      rw [Function.update_of_ne, hm]
      rintro rfl
      have e1 := Placing.sq_eq_some.mp hsq
      have e2 := Placing.sq_eq_some.mp ht
      exact h2 q hq (by omega)

end Calls

/-! ## The fields after the placement, and the final check -/

theorem KingSeen.of_samePieces {b b' : Board} {man : Placement} (h : KingSeen b man)
    (hs : SamePieces b b') : KingSeen b' man := by
  intro c k hk
  rw [Board.getKing, hs.king]
  exact h c k hk

section Fields

variable [Build] {b b' : Board} {man : Placement}

/-- The castling letters change flags and hash key only. -/
theorem flagLoop_spec (h : Consistent b man) {cs : List Char} (hf : b.flagLoop cs = some b') :
    Consistent b' man ∧ SamePieces b b' ∧ b'.epsq = b.epsq := by
  induction cs generalizing b with
  | nil => cases hf; exact ⟨h, .refl _, rfl⟩
  | cons c cs ih =>
    have hset : ∀ f, (b.setFlag f).flagLoop cs = some b' →
        Consistent b' man ∧ SamePieces b b' ∧ b'.epsq = b.epsq := by
      intro f hf
      obtain ⟨h1, h2, h3⟩ := ih (h.setFlag f) hf
      exact ⟨h1, (samePieces_setFlag b f).trans h2, h3.trans (epsq_setFlag b f)⟩
    rw [Board.flagLoop] at hf
    split at hf
    · exact hset _ hf
    split at hf
    · exact hset _ hf
    split at hf
    · exact hset _ hf
    split at hf
    · exact hset _ hf
    split at hf
    · exact ih h hf
    · cases hf

/-- An en passant square that is read lies on the third or the sixth rank. -/
theorem setEpField_spec (h : Consistent b man) {ep : List Char} (he : b.setEpField ep = some b') :
    Consistent b' man ∧ SamePieces b b' ∧
      ∀ e, b'.epsq = some e → rnk e = rank3 ∨ rnk e = rank6 := by
  unfold Board.setEpField at he
  simp only at he
  split at he
  · cases he
    exact ⟨h.clearEpsq, samePieces_clearEpsq b, fun e he => by cases he⟩
  split at he
  · rename_i hf
    split at he
    · cases he
      refine ⟨h.setEpsq _, samePieces_setEpsq b _, fun e he => ?_⟩
      cases he
      left
      simp only [rnk, mkSquare, rank3]
      omega
    split at he
    · cases he
      refine ⟨h.setEpsq _, samePieces_setEpsq b _, fun e he => ?_⟩
      cases he
      right
      simp only [rnk, mkSquare, rank6]
      omega
    · cases he
  · cases he

theorem setFields_spec (h : Consistent b man) (hk : KingSeen b man) {f : FenFields}
    (hf : b.setFields f = some b') :
    Consistent b' man ∧ KingSeen b' man ∧
      ∀ e, b'.epsq = some e → rnk e = rank3 ∨ rnk e = rank6 := by
  simp only [Board.setFields, Option.bind_eq_bind, Option.bind_eq_some_iff, Option.pure_def,
    Option.some.injEq] at hf
  obtain ⟨c, _, b1, h1, b2, h2, rfl⟩ := hf
  have hside : KingSeen (b.setSide c) man := by
    unfold Board.setSide
    split
    · exact hk
    · exact hk
  obtain ⟨hc1, hs1, _⟩ := flagLoop_spec (h.setSide c) h1
  obtain ⟨hc2, hs2, hep⟩ := setEpField_spec hc1 h2
  have hseen := (hside.of_samePieces hs1).of_samePieces hs2
  exact ⟨hc2.withCounters _ _ _, fun c k hk => hseen c k hk, hep⟩

/-- **`is_valid` and `is_legal` on a consistent board.** -/
theorem sim_of_isValid (h : Consistent b man) (hk : KingSeen b man) (hv : b.isValid = true)
    (hl : b.isLegal = true) : Sim b b.abs ∧ Valid b.abs := by
  have hman : b.abs.man = man := h.manAt_eq
  simp only [Board.isValid, Bool.and_eq_true, decide_eq_true_eq, Bool.not_eq_true',
    ← Bool.not_eq_true, any_iff, not_exists] at hv
  obtain ⟨⟨⟨hw, hb⟩, hp⟩, _⟩ := hv
  have hone : ∀ c, ∃ k, ∀ sq, man sq = some (c, .king) ↔ sq = k := by
    intro c
    have hc : Bitboard.popcnt (b.pos c .king) = 1 := by cases c <;> assumption
    obtain ⟨k, hk⟩ := (count_eq_one _).mp hc
    exact ⟨k, fun sq => by rw [← h.mem_pos, hk]⟩
  have hsim : Sim b b.abs := by
    refine ⟨by rw [hman]; exact h, rfl, fun _ => rfl, rfl, ?_⟩
    intro c k hkk
    rw [hman] at hkk
    cases hg : b.getKing c with
    | none => exact absurd hg (hk c k hkk)
    | some k' =>
      obtain ⟨k0, h0⟩ := hone c
      have := (h0 k').mp (h.king c k' hg)
      rw [this, (h0 k).mp hkk]
  refine ⟨hsim, ?_, ?_, ?_, ?_⟩
  · intro c
    obtain ⟨k, hk⟩ := hone c
    exact ⟨k, by rw [hman]; exact (hk k).mpr rfl⟩
  · intro c k k' h1 h2
    rw [hman] at h1 h2
    obtain ⟨k0, h0⟩ := hone c
    rw [(h0 k).mp h1, (h0 k').mp h2]
  · intro c sq hsq
    rw [hman] at hsq
    have hpos := hp sq
    rw [mem_and, mem_or, mem_or, mem_rankBb, mem_rankBb, Bool.and_eq_true, Bool.or_eq_true,
      Bool.or_eq_true, h.mem_pos, h.mem_pos, decide_eq_true_iff, decide_eq_true_iff, not_and] at hpos
    have := hpos (by cases c <;> simp [hsq])
    exact not_or.mp this
  · obtain ⟨k, hk⟩ := hone b.side.xside
    refine (hsim.isLegal ⟨k, ?_⟩).mp hl
    rw [hman]
    exact (hk k).mpr rfl

/-- A board that represents a valid position passes the final check. -/
theorem Sim.isValid {pos : Position} (h : Sim b pos) (hv : Valid pos) : b.isValid = true := by
  have hking : ∀ c, Bitboard.popcnt (b.pos c .king) = 1 := by
    intro c
    obtain ⟨k, hk⟩ := hv.king_exists c
    refine (count_eq_one _).mpr ⟨k, fun sq => ?_⟩
    rw [h.consistent.mem_pos]
    exact ⟨fun e => hv.king_unique _ _ _ e hk, fun e => e ▸ hk⟩
  have hpawn : Bitboard.any ((b.pos .white .pawn ||| b.pos .black .pawn) &&&
      (rankBb 0 ||| rankBb 7)) = false := by
    rw [← Bool.not_eq_true, any_iff, not_exists]
    intro sq
    rw [mem_and, mem_or, mem_or, mem_rankBb, mem_rankBb, Bool.and_eq_true, Bool.or_eq_true,
      Bool.or_eq_true, h.consistent.mem_pos, h.consistent.mem_pos, decide_eq_true_iff,
      decide_eq_true_iff]
    rintro ⟨hp | hp, hr⟩
    · exact not_or.mpr (hv.pawns _ _ hp) hr
    · exact not_or.mpr (hv.pawns _ _ hp) hr
  have hsafe := (h.isLegal (hv.king_exists _)).mpr hv.safe
  rw [Board.isLegal] at hsafe
  unfold Board.isValid
  rw [hking, hking, hpawn, hsafe]
  rfl

end Fields

/-- A build that scans from the high end, with keys that tell their arguments apart. -/
@[reducible] def sampleBuild : Build where
  firstbit := msb
  hashkeys c p sq := BitVec.ofNat 64 (1000003 * (sq.val + 64 * ((pieceCode (some p)).toNat +
    8 * if c = .white then 0 else 1)) + 1)
  hashSide := 0x9e3779b97f4a7c15#64
  hashEp sq := BitVec.ofNat 64 (7919 * sq.val + 3)
  hashWk := 0x1001#64
  hashWq := 0x2002#64
  hashBk := 0x4004#64
  hashBq := 0x8008#64

end HoiChess.Chess
