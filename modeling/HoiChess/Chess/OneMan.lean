import HoiChess.Chess.Accepted
import HoiChess.Chess.Alike
import HoiChess.Chess.GetFen

/-!
# One man on a square

`place_piece` only sets bits, so `parse_fen` accepts texts that put several men on a square.  Put
there twice, a man is counted twice, but the board says where he stands; of two different men
both bits are set.  A board without such a square is, but for what it counts, a board of the
rules (`sim_of_oneMan`), and its FEN is read back as a board that is alike
(`parseFen_getFen_alike`).  A FEN that was written never puts two men on a square
(`oneMan_of_parseFen_getFen`), so the other boards are not read back.
-/

namespace HoiChess.Chess

open WordSet Grid Rules

namespace Board

/-- No two different men stand on a square. -/
def OneMan (b : Board) : Prop :=
  ∀ sq c p c' p', mem (b.pos c p) sq = true → mem (b.pos c' p') sq = true → c = c' ∧ p = p'

/-- What `place_piece` keeps in step, whatever stands on the square. -/
structure Stacked (b : Board) : Prop where
  all : ∀ c sq, mem (b.getPieces c) sq = true ↔ ∃ p, mem (b.pos c p) sq = true
  occupied : ∀ sq, mem b.occupied sq = true ↔ ∃ c p, mem (b.pos c p) sq = true
  king : ∀ c sq, b.getKing c = some sq → mem (b.pos c .king) sq = true

variable {b b' : Board}

theorem Stacked.congr (h : b.Stacked) (he : b'.menFields = b.menFields) : b'.Stacked := by
  unfold menFields at he
  simp only [Prod.mk.injEq] at he
  obtain ⟨h1, h2, h3, _, _, _, h7, _⟩ := he
  constructor
  · intro c sq
    rw [getPieces, h2]
    simp only [pos, h1]
    exact h.all c sq
  · intro sq
    rw [h3]
    simp only [pos, h1]
    exact h.occupied sq
  · intro c sq hk
    rw [getKing, h7] at hk
    rw [pos, h1]
    exact h.king c sq hk

theorem stacked_clear : clear.Stacked := by
  have hno : ∀ c p sq, mem (clear.pos c p) sq = false := by
    intro c p sq
    cases c <;> cases p <;> exact mem_zero sq
  refine ⟨fun c sq => ?_, fun sq => ?_, fun c sq hk => ?_⟩
  · have hall : mem (clear.getPieces c) sq = false := by
      cases c <;> exact mem_zero sq
    simp [hno, hall]
  · have hocc : mem clear.occupied sq = false := mem_zero sq
    simp [hno, hocc]
  · cases c <;> cases hk

section Place

variable [Build]

theorem mem_pos_placePiece (b : Board) (sq : Square) (c : Color) (p : Piece) (c' : Color)
    (p' : Piece) (s : Square) : mem ((b.placePiece sq c p).pos c' p') s = true ↔
      (c' = c ∧ p' = p ∧ s = sq) ∨ mem (b.pos c' p') s = true := by
  show mem (((b.position.set c ((b.position.get c).set p
    (Bitboard.setbit (b.pos c p) sq))).get c').get p') s = true ↔ _
  rw [PerColor.get_set]
  by_cases hc : c' = c
  · subst hc
    rw [if_pos rfl, PerPiece.get_set]
    by_cases hp : p' = p
    · subst hp
      rw [if_pos rfl, Bitboard.setbit, mem_insert, Bool.or_eq_true, decide_eq_true_eq]
      constructor
      · rintro (h | h)
        · exact Or.inr h
        · exact Or.inl ⟨rfl, rfl, h.symm⟩
      · rintro (⟨_, _, rfl⟩ | h)
        · exact Or.inr rfl
        · exact Or.inl h
    · rw [if_neg (Ne.symm hp)]
      simp [hp]
  · rw [if_neg (Ne.symm hc)]
    simp [hc]

theorem Stacked.placePiece (h : b.Stacked) (sq : Square) (c : Color) (p : Piece) :
    (b.placePiece sq c p).Stacked := by
  refine ⟨fun d s => ?_, fun s => ?_, fun d s hk => ?_⟩
  · show mem ((b.positionAll.set c (Bitboard.setbit (b.getPieces c) sq)).get d) s = true ↔ _
    simp only [mem_pos_placePiece, exists_or, ← h.all]
    rw [PerColor.get_set]
    by_cases hd : d = c
    · subst hd
      rw [if_pos rfl, Bitboard.setbit, mem_insert, Bool.or_eq_true, decide_eq_true_eq]
      constructor
      · rintro (h | rfl)
        · exact Or.inr h
        · exact Or.inl ⟨p, rfl, rfl, rfl⟩
      · rintro (⟨_, _, _, rfl⟩ | h)
        · exact Or.inr rfl
        · exact Or.inl h
    · rw [if_neg (Ne.symm hd)]
      simp [hd]
  · show mem (Bitboard.setbit b.occupied sq) s = true ↔ _
    simp only [mem_pos_placePiece, exists_or, ← h.occupied]
    rw [Bitboard.setbit, mem_insert, Bool.or_eq_true, decide_eq_true_eq]
    constructor
    · rintro (h | rfl)
      · exact Or.inr h
      · exact Or.inl ⟨c, p, rfl, rfl, rfl⟩
    · rintro (⟨_, _, _, _, rfl⟩ | h)
      · exact Or.inr rfl
      · exact Or.inl h
  · rw [mem_pos_placePiece]
    have hk : (if p = .king then b.king.set c (some sq) else b.king).get d = some s := hk
    split at hk
    · rename_i hp
      rw [PerColor.get_set] at hk
      split at hk
      · rename_i hd
        cases hk
        exact Or.inl ⟨hd.symm, hp.symm, rfl⟩
      · exact Or.inr (h.king d s hk)
    · exact Or.inr (h.king d s hk)

theorem Stacked.placeAll {ps : List Placing} (h : b.Stacked) (hb : b.placeAll ps = some b') :
    b'.Stacked := by
  induction ps generalizing b with
  | nil =>
    cases hb
    exact h
  | cons p ps ih =>
    rw [Board.placeAll] at hb
    split at hb
    · cases hb
    · exact ih (h.placePiece _ _ _) hb

end Place

end Board

/-! ## A board with one man on each square -/

section Sim

variable [k : Build] {b b' : Board}

theorem Consistent.oneMan {man : Placement} (h : Consistent b man) : b.OneMan := by
  intro sq c p c' p' hm hm'
  rw [h.mem_pos] at hm hm'
  have e := hm.symm.trans hm'
  exact ⟨congrArg Prod.fst (Option.some.inj e), congrArg Prod.snd (Option.some.inj e)⟩

omit k in
theorem Board.OneMan.exists_man (h1 : b.OneMan) :
    ∃ man : Placement, ∀ sq c p, mem (b.pos c p) sq = true ↔ man sq = some (c, p) := by
  have hsq : ∀ sq, ∃ m : Option Man, ∀ c p, mem (b.pos c p) sq = true ↔ m = some (c, p) := by
    intro sq
    by_cases hex : ∃ c p, mem (b.pos c p) sq = true
    · obtain ⟨c, p, hm⟩ := hex
      refine ⟨some (c, p), fun c' p' => ⟨fun hm' => ?_, fun e => ?_⟩⟩
      · obtain ⟨rfl, rfl⟩ := h1 sq c p c' p' hm hm'
        rfl
      · cases e
        exact hm
    · refine ⟨none, fun c p => ⟨fun hm => absurd ⟨c, p, hm⟩ hex, fun e => by cases e⟩⟩
  exact ⟨fun sq => Classical.choose (hsq sq), fun sq => Classical.choose_spec (hsq sq)⟩

/-- What a board with these men would count if each of them were put up once. -/
def Board.recount (b : Board) (man : Placement) : Tally where
  moveno := b.moveno
  movecnt50 := b.movecnt50
  material := ⟨∑ sq, manValue .white (man sq), ∑ sq, manValue .black (man sq)⟩
  hasCastled := b.hasCastled
  pceMovecnt := b.pceMovecnt
  hashkey := Incremental.xorSum (fun sq => manKey sq (man sq)) ^^^ sideKey b.side ^^^ stateKey b
  pawnhashkey := Incremental.xorSum (fun sq => manPawnKey sq (man sq)) ^^^ sideKey b.side

/-- **A board with one man on a square represents a placement**, counted anew. -/
theorem Board.Stacked.consistent_recount (h : b.Stacked) (hocc : b.OccupanciesAgree)
    {man : Placement} (hman : ∀ sq c p, mem (b.pos c p) sq = true ↔ man sq = some (c, p)) :
    Consistent (b.withTally (b.recount man)) man := by
  have hsome : ∀ sq, (man sq).isSome = mem b.occupied sq := by
    intro sq
    rw [Bool.eq_iff_iff, h.occupied, Option.isSome_iff_exists]
    constructor
    · rintro ⟨⟨c, p⟩, hm⟩
      exact ⟨c, p, (hman sq c p).mpr hm⟩
    · rintro ⟨c, p, hm⟩
      exact ⟨(c, p), (hman sq c p).mp hm⟩
  constructor
  · intro c p sq
    rw [Bool.eq_iff_iff, decide_eq_true_iff]
    exact hman sq c p
  · intro c sq
    rw [Bool.eq_iff_iff]
    refine (h.all c sq).trans ⟨?_, ?_⟩
    · rintro ⟨p, hm⟩
      rw [(hman sq c p).mp hm]
      simp
    · intro hany
      cases hm : man sq with
      | none =>
        rw [hm] at hany
        cases hany
      | some m =>
        rw [hm] at hany
        obtain rfl : m.1 = c := by simpa using hany
        exact ⟨m.2, (hman sq m.1 m.2).mpr hm⟩
  · rw [show (fun sq => (man sq).isSome) = mem b.occupied from funext hsome]
    exact hocc
  · intro c sq hk
    exact (hman sq c .king).mp (h.king c sq hk)
  · intro c
    cases c <;> rfl
  · rfl
  · rfl

/-! ## Accepted boards -/

theorem stacked_of_accepted {s : String} (h : Board.parseFen s = .accepted b) : b.Stacked := by
  obtain ⟨f, b0, _, hplace, hfields, _⟩ := steps_of_accepted h
  exact (Board.stacked_clear.placeAll hplace).congr (Board.setFields_menFields hfields)

omit k in
theorem storeInt_fits (v : Int) : -2 ^ 31 ≤ storeInt v ∧ storeInt v < 2 ^ 31 := by
  unfold storeInt
  generalize max (-2 ^ 63) (min v (2 ^ 63 - 1)) = w
  have h1 := Int.le_bmod (x := w) (m := 2 ^ 32) (by decide)
  have h2 := Int.bmod_lt (x := w) (m := 2 ^ 32) (by decide)
  omega

omit k in
theorem scanInt_fits {s t : List Char} {v : Int} (h : scanInt s = some (v, t)) :
    -2 ^ 31 ≤ v ∧ v < 2 ^ 31 := by
  have hsome : ∀ {c : Prop} [Decidable c] {w : Int} {u : List Char},
      (if c then none else some (storeInt w, u)) = some (v, t) → -2 ^ 31 ≤ v ∧ v < 2 ^ 31 := by
    intro c _ w u e
    split at e
    · cases e
    · obtain ⟨rfl, _⟩ := Prod.mk.inj (Option.some.inj e)
      exact storeInt_fits w
  unfold scanInt at h
  dsimp only at h
  split at h
  · exact hsome h
  · exact hsome h
  · exact hsome h

omit k in
theorem scanFen_hmc_fits {s : List Char} {f : FenFields} (h : scanFen s = some f) :
    -2 ^ 31 ≤ f.hmc ∧ f.hmc < 2 ^ 31 := by
  unfold scanFen at h
  simp only [Option.bind_eq_bind, Option.bind_eq_some_iff, Option.pure_def] at h
  obtain ⟨_, _, _, _, _, _, _, _, ⟨hmc, t⟩, hh, _, _, hf⟩ := h
  cases hf
  exact scanInt_fits hh

theorem movecnt50_of_accepted {s : String} (h : Board.parseFen s = .accepted b) :
    -2 ^ 31 ≤ b.movecnt50 ∧ b.movecnt50 < 2 ^ 31 := by
  obtain ⟨f, b0, hf, _, hset, _⟩ := steps_of_accepted h
  simp only [Board.setFields, Option.bind_eq_bind, Option.bind_eq_some_iff, Option.pure_def,
    Option.some.injEq] at hset
  obtain ⟨_, _, _, _, _, _, rfl⟩ := hset
  exact scanFen_hmc_fits hf

/-- **A board that is read, with one man on each square, is a board of the rules** but for what
it counts. -/
theorem sim_of_oneMan {s : String} (h : Board.parseFen s = .accepted b) (h1 : b.OneMan) :
    ∃ man, Sim (b.withTally (b.recount man)) b.abs ∧ Valid b.abs := by
  obtain ⟨man, hman⟩ := h1.exists_man
  obtain ⟨hput, hking⟩ := putUp_of_accepted h
  obtain ⟨f, b0, _, _, _, hvalid, hlegal⟩ := steps_of_accepted h
  have halike : b.Alike (b.withTally (b.recount man)) := ⟨_, rfl⟩
  have hcons := (stacked_of_accepted h).consistent_recount hput.occupancies hman
  have hseen : KingSeen (b.withTally (b.recount man)) man := fun c _ _ => hking c
  exact ⟨man, sim_of_isValid hcons hseen (halike.isValid.trans hvalid)
    (halike.isLegal.trans hlegal)⟩

omit k in
/-- The printing loop looks at the squares only. -/
theorem fenLoop_congr {c : Board} (hp : ∀ sq, b.pieceAt sq = c.pieceAt sq)
    (hc : ∀ sq p, b.pieceAt sq = some p → b.fenLetter sq p = c.fenLetter sq p) (l : List Square)
    (empty : Nat) : b.fenLoop l empty = c.fenLoop l empty := by
  induction l generalizing empty with
  | nil => rfl
  | cons sq l ih =>
    simp only [Board.fenLoop, ← hp sq]
    cases hm : b.pieceAt sq with
    | none => simp only [ih]
    | some p => simp only [hc sq p hm, ih]

theorem getFen_recount (b : Board) (man : Placement) :
    (b.withTally (b.recount man)).getFen = b.getFen := by
  have hpiece : ∀ sq, (b.withTally (b.recount man)).pieceAt sq = b.pieceAt sq := fun _ => rfl
  have hletter : ∀ sq p, (b.withTally (b.recount man)).pieceAt sq = some p →
      (b.withTally (b.recount man)).fenLetter sq p = b.fenLetter sq p := fun _ _ _ => rfl
  have hloop := fenLoop_congr hpiece hletter fenOrder 0
  unfold Board.getFen
  rw [hloop]
  rfl

/-- **Its FEN is read back as a board that is alike.** -/
theorem parseFen_getFen_alike {s : String} (h : Board.parseFen s = .accepted b) (h1 : b.OneMan)
    (hep : ∀ e, b.epsq = some e → rnk e = rank3 ∨ rnk e = rank6) :
    ∃ b', Board.parseFen b.getFen = .accepted b' ∧ b.Alike b' := by
  obtain ⟨man, hsim, hv⟩ := sim_of_oneMan h h1
  have honly : (b.withTally (b.recount man)).OnlyCastling := (onlyCastling_of_parseFen h).congr rfl
  have hh : -2 ^ 31 ≤ b.movecnt50 ∧ b.movecnt50 < 2 ^ 31 := movecnt50_of_accepted h
  obtain ⟨v, hread, _⟩ := hsim.parseFen_getFen hv hep honly hh
  rw [getFen_recount] at hread
  have halike : b.Alike (b.withTally (b.recount man)) := ⟨_, rfl⟩
  exact ⟨_, hread, halike.withoutHistory v⟩

/-! ## What is printed names one man for each square -/

/-- The man that is printed for a square. -/
def Board.fenMan (b : Board) (sq : Square) : Option Man :=
  (b.pieceAt sq).map fun p => (if b.colorAt sq = some .white then .white else .black, p)

/-- The placement field that is printed puts up the men that are printed. -/
theorem exists_board_fenMan (b : Board) : ∃ c : Board,
    Board.clear.placeAll ((fenFrom 64).filterMap (fenCall b.fenMan)) = some c ∧
      Consistent c b.fenMan ∧
      placeLoop (b.fenLoop fenOrder 0) rank8 0 =
        ((fenFrom 64).filterMap (fenCall b.fenMan), true) := by
  obtain ⟨c, hc, hcons, _⟩ := placeAll_fenCall b.fenMan
  refine ⟨c, hc, hcons, ?_⟩
  have hpiece : ∀ sq, b.pieceAt sq = c.pieceAt sq := by
    intro sq
    rw [hcons.pieceAt_eq, Board.fenMan, Option.map_map]
    exact (congrFun Option.map_id _).symm
  have hletter : ∀ sq p, b.pieceAt sq = some p → b.fenLetter sq p = c.fenLetter sq p := by
    intro sq p hp
    unfold Board.fenLetter
    rw [hcons.colorAt_eq, Board.fenMan, hp]
    by_cases hw : b.colorAt sq = some .white
    · simp [hw]
    · simp [hw]
  rw [fenLoop_congr hpiece hletter, fenOrder_eq]
  exact placeLoop_fenLoop hcons le_rfl fun _ => by decide

/-- **A FEN that was written puts one man on a square**, whatever board it was written for. -/
theorem oneMan_of_parseFen_getFen (hne : ∃ sq p, b.pieceAt sq = some p)
    (hh : -2 ^ 31 ≤ b.movecnt50 ∧ b.movecnt50 < 2 ^ 31)
    (h : Board.parseFen b.getFen = .accepted b') : b'.OneMan := by
  obtain ⟨c, hc, hcons, hloop⟩ := exists_board_fenMan b
  have hsome : b.fenLoop fenOrder 0 ≠ [] := by
    intro e
    obtain ⟨sq, p, hp⟩ := hne
    rw [e] at hloop
    have hnil : [] = (fenFrom 64).filterMap (fenCall b.fenMan) := congrArg Prod.fst hloop
    obtain ⟨m, hm⟩ : ∃ m, fenCall b.fenMan sq = some m := by
      rw [fenCall, Board.fenMan, hp]
      exact ⟨_, rfl⟩
    have hmem := List.mem_filterMap.mpr ⟨sq, mem_fenFrom sq, hm⟩
    rw [← hnil] at hmem
    cases hmem
  obtain ⟨v, hscan, _⟩ := scanFen_getFen b hsome hh
  obtain ⟨f, b0, hf, hplace, hfields, _⟩ := steps_of_accepted h
  obtain rfl := Option.some.inj (hscan.symm.trans hf)
  rw [hloop, hc] at hplace
  obtain rfl := Option.some.inj hplace
  have hmen := Board.setFields_menFields hfields
  have hpos : b'.position = c.position := congrArg Prod.fst hmen
  intro sq d p d' p' hm hm'
  rw [Board.pos, hpos] at hm hm'
  exact hcons.oneMan sq d p d' p' hm hm'

end Sim

end HoiChess.Chess
