import HoiChess.Xiangqi.Fen

/-!
# Xiangqi boards that play reaches

`Reached` are the boards reached from the opening position by listed legal moves,
`ReachedWithNull` those that may also need null moves when not in check.  The simulation lifts to
runs, so every such board represents a sane position of the rules; `boardInvariant` spells out
what this means for each field of the board, and `generatesRules` for the moves that are
listed.
-/

namespace HoiChess.Xiangqi

open Grid Rules Incremental
open Chess (Color PerColor)

/-! ## The opening position -/

namespace Rules

/-- The board of the opening position without its keys and counts. -/
def openingColors : Board :=
  { Board.clear with positionColors := fun sq => (openingMan sq).map Prod.fst }

theorem colored_openingColors : Colored openingColors openingMan := fun _ => rfl

theorem opening_unattacked : ∀ c s p, openingMan s = some (c, p) →
    ∀ k, openingMan k = some (c.xside, .king) → k ∉ openingColors.attacks p s c := by
  decide +kernel

theorem openingMan_king : ∀ c k, openingMan k = some (c, .king) ↔
    k = match c with | .white => 4 | .black => 85 := by
  decide

theorem opening_inPlace : ∀ c p sq, openingMan sq = some (c, p) → InPlace c sq p := by
  have h : ∀ sq c, (openingMan sq = some (c, .guard) → InPalace c sq) ∧
      (openingMan sq = some (c, .king) → InPalace c sq) ∧
      (openingMan sq = some (c, .elephant) → OnHalf c sq) := by
    decide
  intro c p sq hm
  cases p with
  | guard => exact (h sq c).1 hm
  | king => exact (h sq c).2.1 hm
  | elephant => exact (h sq c).2.2 hm
  | _ => trivial

theorem opening_room : ∀ c, ∑ sq, manMobility c (openingMan sq) ≤ 256 := by decide +kernel

theorem opening_not_facing : ¬ Facing openingMan := by
  rintro ⟨w, b, hw, hb, _, hclear⟩
  rw [openingMan_king] at hw hb
  subst hw hb
  have h : openingMan 31 = none :=
    hclear 31 ((between_file (by decide) (by decide) 31).mpr (by decide))
  exact absurd h (by decide)

/-- Neither side is in danger. -/
theorem opening_safe (c : Color) : (Position.mk openingMan c).Safe := by
  refine ⟨opening_not_facing, ?_⟩
  rintro k hk ⟨⟨s, d, p, cap⟩, ⟨hs, hd, hm⟩, rfl⟩
  refine opening_unattacked c s p hs d hk ?_
  exact (Board.mem_attacks colored_openingColors (opening_inPlace _ _ _ hs) hd).mpr hm

theorem sane_opening : Sane opening where
  king_exists c := ⟨_, (openingMan_king c _).mpr rfl⟩
  king_unique c k k' hk hk' := by rw [(openingMan_king c k).mp hk, (openingMan_king c k').mp hk']
  inPlace := opening_inPlace
  room := opening_room
  safe := opening_safe .white

/-- Reached from the opening position by legal moves of the rules. -/
inductive Played : Position → Prop
  | opening : Played opening
  | move {pos : Position} {ply : Ply} : Played pos → pos.Legal ply → Played (pos.apply ply)

theorem Played.sane {pos : Position} (h : Played pos) : Sane pos := by
  induction h with
  | opening => exact sane_opening
  | move _ hl ih => exact ih.apply hl

end Rules

def openingFields : FenFields where
  pos := "rheakaehr/9/1c5c1/p1p1p1p1p/9/9/P1P1P1P1P/1C5C1/9/RHEAKAEHR".toList
  clr := 'w'
  hmc := 0
  fmc := 1

theorem scanFen_openingFen :
    scanFen (openingFen.toList.takeWhile (fun c => c ≠ '\x00')) = some openingFields := by
  decide +kernel

def openingPlacings : List Placing := (placeLoop openingFields.pos 9 0).1

theorem openingPlacings_sq : ∀ p ∈ openingPlacings, p.sq ≠ none := by decide

theorem openingPlacings_ne : openingPlacings.Pairwise (fun p q => p.index ≠ q.index) := by
  decide

theorem placed_opening : ∀ sq, placed (fun _ => none) openingPlacings sq = openingMan sq := by
  decide +kernel

theorem placeLoop_opening : (placeLoop openingFields.pos 9 0).2 = true := by decide

section Runs

variable [k : Keys]

/-- **`parse_fen` accepts the opening position and sets up its board.** -/
theorem parseFen_opening : ∃ b, Board.parseFen openingFen = .accepted b ∧ Sim b opening := by
  have hfree : ∀ p ∈ openingPlacings, ∃ sq, p.sq = some sq ∧ (none : Option Man) = none := by
    intro p hp
    obtain ⟨sq, hsq⟩ := Option.ne_none_iff_exists'.mp (openingPlacings_sq p hp)
    exact ⟨sq, hsq, rfl⟩
  obtain ⟨b, hb, hc, hk, hside⟩ := placeAll_consistent Consistent.clear
    (fun c k hk => by cases hk) hfree openingPlacings_ne
  have hman : placed (fun _ => none) openingPlacings = opening.man := funext placed_opening
  rw [hman] at hc hk
  have hset : b.setSide .white = b := if_neg (not_not.mpr hside)
  have hsim : Sim { b with movecnt50 := 0, moveno := 1 } opening := by
    refine ⟨⟨hc.pieces, hc.colors, hc.king, hc.material, hc.hash, hc.pawnhash⟩, hside, ?_⟩
    intro c sq hsq
    show b.getKing c = some sq
    cases hg : b.getKing c with
    | none => exact absurd hg (hk c sq hsq)
    | some sq' => rw [sane_opening.king_unique c sq sq' hsq (hc.king c sq' hg)]
  refine ⟨_, ?_, hsim⟩
  rw [Board.parseFen, scanFen_openingFen]
  simp only [Board.parseFenFields]
  rw [show Board.clear.placeAll (placeLoop openingFields.pos 9 0).1 = some b from hb]
  simp only [placeLoop_opening, if_true]
  show Board.checked { b.setSide .white with movecnt50 := 0, moveno := 1 } = _
  rw [hset]
  exact hsim.checked sane_opening

/-! ## Runs -/

/-- Reached from the opening position by listed legal moves. -/
inductive Reached : Board → Prop
  | opening {b : Board} : Board.parseFen openingFen = .accepted b → Reached b
  | move {b : Board} {mov : Move} : Reached b → mov ∈ b.legalMoves.moves → Reached (b.makeMove mov)

/-- Reached by listed legal moves and, when not in check, null moves. -/
inductive ReachedWithNull : Board → Prop
  | opening {b : Board} : Board.parseFen openingFen = .accepted b → ReachedWithNull b
  | move {b : Board} {mov : Move} :
    ReachedWithNull b → mov ∈ b.legalMoves.moves → ReachedWithNull (b.makeMove mov)
  | null {b : Board} : ReachedWithNull b → b.inCheck = false → ReachedWithNull (b.makeMove .null)

variable {b : Board} {pos : Position}

theorem sim_of_opening (h : Board.parseFen openingFen = .accepted b) : Sim b opening := by
  obtain ⟨b', hb', hsim⟩ := parseFen_opening
  rw [h] at hb'
  cases hb'
  exact hsim

/-- **Runs of the program follow runs of the rules.** -/
theorem ReachedWithNull.sim (h : ReachedWithNull b) : ∃ pos, Sim b pos ∧ Sane pos := by
  induction h with
  | opening h => exact ⟨Rules.opening, sim_of_opening h, sane_opening⟩
  | move _ hm ih =>
    obtain ⟨pos, hsim, hs⟩ := ih
    obtain ⟨ply, hl, rfl⟩ := (hsim.mem_legalMoves hs).mp hm
    exact ⟨pos.apply ply, hsim.makeMove hs.toValid hs.safe hl.1, hs.apply hl⟩
  | null _ hc ih =>
    obtain ⟨pos, hsim, hs⟩ := ih
    refine ⟨pos.pass, hsim.makeNull, hs.pass ?_⟩
    rw [← hsim.inCheck hs.toValid, hc]
    decide

theorem Reached.sim (h : Reached b) : ∃ pos, Sim b pos ∧ Played pos := by
  induction h with
  | opening h => exact ⟨Rules.opening, sim_of_opening h, .opening⟩
  | move _ hm ih =>
    obtain ⟨pos, hsim, hp⟩ := ih
    obtain ⟨ply, hl, rfl⟩ := (hsim.mem_legalMoves hp.sane).mp hm
    exact ⟨pos.apply ply, hsim.makeMove hp.sane.toValid hp.sane.safe hl.1, hp.move hl⟩

end Runs

/-! ## What each field of a reached board holds -/

/-- The man on a square, as the two arrays have it. -/
def Board.manAt (b : Board) (sq : Square) : Option Man :=
  match b.colorAt sq, b.pieceAt sq with
  | some c, some p => some (c, p)
  | _, _ => none

/-- The position a board stands for. -/
def Board.abs (b : Board) : Position := ⟨b.manAt, b.side⟩

section Invariant

variable [k : Keys] {b : Board} {man : Placement} {pos : Position}

theorem Consistent.manAt_eq (h : Consistent b man) : b.manAt = man := by
  funext sq
  have hc : b.colorAt sq = (man sq).map Prod.fst := h.colors sq
  rw [Board.manAt, hc, h.pieces]
  cases man sq <;> rfl

theorem Sim.abs_eq (h : Sim b pos) : b.abs = pos := by
  have hman : b.manAt = pos.man := h.consistent.manAt_eq
  have hside : b.side = pos.side := h.side
  rw [Board.abs, hman, hside]

/-- What holds of the fields of a board between moves. -/
structure BoardInvariant (b : Board) : Prop where
  none_iff : ∀ sq, b.pieceAt sq = none ↔ b.colorAt sq = none
  king : ∀ c, ∃ sq, b.getKing c = some sq ∧ InPalace c sq ∧
    ∀ t, b.colorAt t = some c ∧ b.pieceAt t = some .king ↔ t = sq
  material : ∀ c, b.material.get c = ∑ sq, manValue c (b.manAt sq)
  hash : b.hashkey = xorSum (fun sq => manKey sq (b.manAt sq)) ^^^ sideKey b.side
  pawnhash : b.pawnhashkey = xorSum (fun sq => manPawnKey sq (b.manAt sq)) ^^^ sideKey b.side
  facing : b.kingsFacingWalk ≠ none

theorem Sim.boardInvariant (h : Sim b pos) (hv : Valid pos) : BoardInvariant b := by
  have hc : ∀ sq, b.colorAt sq = (pos.man sq).map Prod.fst := h.consistent.colors
  have hp := h.consistent.pieces
  have hman := h.consistent.manAt_eq
  have hking : ∀ c t, b.colorAt t = some c ∧ b.pieceAt t = some .king ↔
      pos.man t = some (c, .king) := by
    intro c t
    rw [hc, hp]
    cases pos.man t with
    | none => simp
    | some m => simp [Prod.ext_iff]
  refine ⟨fun sq => ?_, fun c => ?_, fun c => ?_, ?_, ?_, ?_⟩
  · rw [hc, hp, Option.map_eq_none_iff, Option.map_eq_none_iff]
  · obtain ⟨sq, hsq⟩ := hv.king_exists c
    refine ⟨sq, h.king c sq hsq, hv.inPlace _ _ _ hsq, fun t => ?_⟩
    rw [hking]
    exact ⟨fun ht => hv.king_unique _ _ _ ht hsq, fun e => e ▸ hsq⟩
  · rw [h.consistent.material, hman]
  · rw [h.consistent.hash, hman]
  · rw [h.consistent.pawnhash, hman]
  · obtain ⟨r, hr, _⟩ := h.kingsFacingWalk hv
    rw [hr]
    exact Option.some_ne_none r

/-- **The board invariant holds on every run, for any key tables.** -/
theorem reachedWithNull_xiangqiInvariant (h : ReachedWithNull b) : BoardInvariant b := by
  obtain ⟨pos, hsim, hs⟩ := h.sim
  exact hsim.boardInvariant hs.toValid

/-! ## Move generation on a reached board -/

/-- What generation has to list on a board: every legal move of the rules exactly once. -/
structure GeneratesRules (b : Board) : Prop where
  played : Played b.abs
  nodup : b.legalMoves.moves.Nodup
  legal : ∀ mov, mov ∈ b.legalMoves.moves ↔ ∃ ply, b.abs.Legal ply ∧
    mov = if let some q := ply.cap then .capture ply.src ply.dst ply.piece q
      else .normal ply.src ply.dst ply.piece

/-- **Move generation is exactly the rules of xiangqi**, on every board of a game. -/
theorem reached_generatesXiangqi (h : Reached b) : GeneratesRules b := by
  obtain ⟨pos, hsim, hp⟩ := h.sim
  have hs := hp.sane
  rw [← hsim.abs_eq] at hp
  refine ⟨hp, hsim.legalMoves_nodup hs.toValid, fun mov => ?_⟩
  rw [hsim.mem_legalMoves hs, hsim.abs_eq]
  refine exists_congr fun ply => and_congr_right fun _ => ?_
  unfold Ply.encode
  cases ply.cap <;> exact eq_comm

end Invariant

/-! ## The invariant and exact generation on concrete boards -/

/-- Keys that tell nothing apart. -/
@[reducible] def sampleKeys : Keys := ⟨fun _ _ _ => 0#64, 0#64⟩

/-- The invariant after a null move from the opening position. -/
theorem xiangqiInvariant_after_null :
    ∃ b, @Board.parseFen sampleKeys openingFen = .accepted b ∧
      @BoardInvariant sampleKeys (@Board.makeMove b sampleKeys .null) := by
  let _ := sampleKeys
  obtain ⟨b, hb, hsim⟩ := parseFen_opening
  refine ⟨b, hb, reachedWithNull_xiangqiInvariant (.null (.opening hb) ?_)⟩
  rw [← Bool.not_eq_true, hsim.inCheck sane_opening.toValid]
  exact not_not.mpr (opening_safe .black)

/-- Exact generation on the opening board. -/
theorem generatesXiangqi_opening : ∃ b, @Board.parseFen sampleKeys openingFen = .accepted b ∧
    @GeneratesRules sampleKeys b := by
  let _ := sampleKeys
  obtain ⟨b, hb, _⟩ := parseFen_opening
  exact ⟨b, hb, reached_generatesXiangqi (.opening hb)⟩

end HoiChess.Xiangqi
