import HoiChess.Chess.Fields
import HoiChess.Chess.Fen

/-!
# Boards that play reaches

`ReachedWithNull` are the boards reached from the opening position by listed
legal moves and by null moves when not in check, `Reached` those that need no
null move.  The simulation lifts to runs: every such board represents a sane
position of the rules (`ReachedWithNull.sim`, `Reached.sim`), reached there by
the corresponding moves.  `boardInvariant` spells out what this means for
each field of the board.
-/

namespace HoiChess.Chess

open WordSet Grid Rules Incremental

/-! ## The opening position -/

namespace Rules

def backRank (f : Nat) : Piece :=
  match f with
  | 0 | 7 => .rook
  | 1 | 6 => .knight
  | 2 | 5 => .bishop
  | 3 => .queen
  | _ => .king

def openingMan (sq : Square) : Option Man :=
  if rnk sq = rank1 then some (.white, backRank (fil sq))
  else if rnk sq = rank2 then some (.white, .pawn)
  else if rnk sq = rank7 then some (.black, .pawn)
  else if rnk sq = rank8 then some (.black, backRank (fil sq))
  else none

def opening : Position where
  man := openingMan
  side := .white
  right _ := true
  ep := none

theorem opening_unattacked : ∀ sq, openingMan sq = some (.black, .king) →
    ∀ s p, openingMan s = some (.white, p) → sq ∉ reach openingMan .white p s := by
  decide

theorem sane_opening : Sane opening where
  king_exists c := by cases c; exacts [⟨e1, rfl⟩, ⟨e8, rfl⟩]
  king_unique := by
    have h : ∀ c k k', openingMan k = some (c, .king) → openingMan k' = some (c, .king) → k = k' := by
      decide +kernel
    exact h
  pawns := by
    have h : ∀ c sq, openingMan sq = some (c, .pawn) → rnk sq ≠ rank1 ∧ rnk sq ≠ rank8 := by
      decide
    exact h
  safe := by
    rintro sq hk ⟨s, p, hs, hr⟩
    exact opening_unattacked sq hk s p hs hr
  rights f _ := by cases f <;> decide
  ep e he := by cases he

end Rules

def openingFields : FenFields where
  pos := "rnbqkbnr/pppppppp/8/8/8/8/PPPPPPPP/RNBQKBNR".toList
  clr := 'w'
  flg := "KQkq".toList
  ep := ['-']
  hmc := 0
  fmc := 1

theorem scanFen_openingFen :
    scanFen (openingFen.toList.takeWhile (fun c => c ≠ '\x00')) = some openingFields := by
  decide

def openingPlacings : List Placing := (placeLoop openingFields.pos rank8 0).1

theorem openingPlacings_sq : ∀ p ∈ openingPlacings, p.sq ≠ none := by decide

theorem openingPlacings_ne : openingPlacings.Pairwise (fun p q => p.index ≠ q.index) := by
  decide

theorem placed_opening : ∀ sq, placed (fun _ => none) openingPlacings sq = openingMan sq := by
  decide

theorem placeLoop_opening : (placeLoop openingFields.pos rank8 0).2 = true := by decide

section Runs

variable [k : Build]

/-- **`parse_fen` accepts the opening position and sets up its board.** -/
theorem parseFen_opening : ∃ b, Board.parseFen openingFen = .accepted b ∧ Sim b opening := by
  have hcalls : CallsOk Board.clear openingPlacings := by
    rw [callsOk_iff .clear]
    refine ⟨fun p hp => ?_, openingPlacings_ne⟩
    obtain ⟨sq, hsq⟩ := Option.ne_none_iff_exists'.mp (openingPlacings_sq p hp)
    exact ⟨sq, hsq, rfl⟩
  obtain ⟨b, hb, hc, hk⟩ := placeAll_consistent .clear (fun c k hk => by cases hk) hcalls
  have hman : placed (fun _ => none) openingPlacings = opening.man := funext placed_opening
  rw [hman] at hc hk
  obtain ⟨b', hb'⟩ : ∃ b', b.setFields openingFields = some b' := ⟨_, rfl⟩
  obtain ⟨hc', hk', _⟩ := setFields_spec hc hk hb'
  have hside : b'.side = .white := by
    cases hb'
    change ((((b.setSide .white).setFlag .wk).setFlag .wq).setFlag .bk |>.setFlag .bq).side = _
    rw [(samePieces_setFlag _ _).side, (samePieces_setFlag _ _).side,
      (samePieces_setFlag _ _).side, (samePieces_setFlag _ _).side, side_setSide]
  have hflags : ∀ f, b'.hasFlag f = true := by
    intro f
    cases hb'
    change ((((b.setSide .white).setFlag .wk).setFlag .wq).setFlag .bk |>.setFlag .bq).hasFlag f =
      true
    simp only [hasFlag_setFlag]
    cases f <;> simp
  have hep : b'.epsq = none := by cases hb'; rfl
  have hsim : Sim b' opening := by
    refine ⟨hc', hside, hflags, hep, ?_⟩
    intro c sq hsq
    cases hg : b'.getKing c with
    | none => exact absurd hg (hk' c sq hsq)
    | some sq' =>
      rw [sane_opening.king_unique c sq sq' hsq (hc'.king c sq' hg)]
  refine ⟨b', ?_, hsim⟩
  rw [Board.parseFen, scanFen_openingFen]
  simp only [Board.parseFenFields]
  rw [show Board.clear.placeAll (placeLoop openingFields.pos rank8 0).1 = some b from hb]
  simp only [placeLoop_opening, if_true, hb']
  rw [hsim.isValid sane_opening.toValid,
    (hsim.isLegal (sane_opening.king_exists _)).mpr sane_opening.safe]
  rfl

/-! ## Runs -/

/-- Reached from the opening position by listed legal moves. -/
inductive Reached : Board → Prop
  | opening {b : Board} : Board.parseFen openingFen = .accepted b → Reached b
  | move {b : Board} {mov : Move} : Reached b → mov ∈ b.legalMoves.moves → Reached (b.makeMove mov)

/-- Reached by listed legal moves and, when not in check, null moves. -/
inductive ReachedWithNull : Board → Prop
  | opening {b : Board} : Board.parseFen openingFen = .accepted b → ReachedWithNull b
  | move {b : Board} {mov : Move} :
    ReachedWithNull b → mov ∈ b.legalMoves.moves → ReachedWithNull (b.makeMove mov)
  | null {b : Board} : ReachedWithNull b → b.inCheck = false → ReachedWithNull (b.makeMove .null)

theorem Reached.withNull {b : Board} (h : Reached b) : ReachedWithNull b := by
  induction h with
  | opening h => exact .opening h
  | move _ hm ih => exact .move ih hm

variable {b : Board} {pos : Position}

/-- A move of the rules is legal exactly if the program finds it legal. -/
theorem Sim.isLegalMove (h : Sim b pos) (hs : Sane pos) {ply : Ply} (hp : pos.Pseudo ply) :
    b.isLegalMove ply.encode = true ↔ (pos.apply ply).Safe := by
  unfold Board.isLegalMove
  apply (h.makeMove hs hp).isLegal
  obtain ⟨k, hk⟩ := placement_king_any hs hp (pos.apply ply).side.xside
  exact ⟨k, (hk k).mpr rfl⟩

/-- Every listed move is the word of a pseudo-legal ply. -/
theorem Sim.of_mem_generateMoves (h : Sim b pos) (hs : Sane pos) {allpromo : Bool} {mov : Move}
    (hm : mov ∈ (b.generateMoves allpromo .empty).moves) :
    ∃ ply, mov = ply.encode ∧ pos.Pseudo ply := by
  rw [generateMoves_eq h.consistent, Movelist.addAll_moves_take] at hm
  have hm := List.mem_of_mem_take hm
  rw [Movelist.moves_empty, List.nil_append] at hm
  obtain ⟨ply, hp, rfl⟩ := List.mem_map.mp hm
  exact ⟨ply, rfl, (listed_iff_pseudo hs ply).mp ((h.mem_plies hs.toValid allpromo ply).mp hp).1⟩

/-- Every move that survives `filter_illegal` is the word of a legal ply. -/
theorem Sim.of_mem_filterIllegal (h : Sim b pos) (hs : Sane pos) {allpromo : Bool} {mov : Move}
    (hm : mov ∈ (b.filterIllegal (b.generateMoves allpromo .empty)).moves) :
    ∃ ply, mov = ply.encode ∧ pos.Legal ply := by
  rw [Board.filterIllegal, Movelist.mem_filterBy] at hm
  obtain ⟨ply, rfl, hp⟩ := h.of_mem_generateMoves hs hm.1
  exact ⟨ply, rfl, hp, (h.isLegalMove hs hp).mp hm.2⟩

/-- **The null move passes the turn.** -/
theorem Sim.makeNull (h : Sim b pos) : Sim (b.makeMove .null) pos.pass := by
  have hops : b.moveOps .null = [] := rfl
  have hb : b.makeMove .null = (b.clearEpsq).updateCounters .null := rfl
  have hc := h.consistent.makeMove .null (by rw [hops]; trivial)
  rw [hops] at hc
  refine ⟨hc, ?_, ?_, rfl, h.king⟩
  · change b.side.xside = pos.side.xside
    rw [h.side]
  · exact h.rights

/-- **Runs of the program follow runs of the rules.** -/
theorem ReachedWithNull.sim (h : ReachedWithNull b) : ∃ pos, Sim b pos ∧ Sane pos := by
  induction h with
  | opening h =>
    obtain ⟨b', hb', hsim⟩ := parseFen_opening
    rw [h] at hb'
    cases hb'
    exact ⟨Rules.opening, hsim, sane_opening⟩
  | move _ hm ih =>
    obtain ⟨pos, hsim, hs⟩ := ih
    obtain ⟨ply, rfl, hl⟩ := hsim.of_mem_filterIllegal hs hm
    exact ⟨pos.apply ply, hsim.makeMove hs hl.1, hs.apply hl⟩
  | null _ hc ih =>
    obtain ⟨pos, hsim, hs⟩ := ih
    refine ⟨pos.pass, hsim.makeNull, hs.pass ?_⟩
    rw [← hsim.inCheck (hs.king_exists _), hc]
    decide

end Runs

/-! ## What each field of a reached board holds -/

/-- What holds of the fields of a board between moves. -/
structure BoardInvariant [Build] (b : Board) : Prop extends FieldsAgree b where
  castling : ∀ f, b.hasFlag f = true →
    mem (b.pos f.color .king) f.kingHome = true ∧ mem (b.pos f.color .rook) f.rookHome = true
  epsq : ∀ e, b.epsq = some e → mem b.occupied e = false ∧
    ∃ sq, b.getEppawn = some sq ∧ mem (b.pos b.side.xside .pawn) sq = true

section Invariant

variable [k : Build] {b : Board}

theorem Sim.boardInvariant {pos : Position} (h : Sim b pos) (hs : Sane pos) : BoardInvariant b := by
  have hc := h.consistent
  refine ⟨hc.fieldsAgree (h.kings hs.toValid), ?_, ?_⟩
  · intro f hf
    rw [hc.mem_pos, hc.mem_pos]
    exact hs.rights f (by rw [← h.rights f, hf])
  · intro e he
    rw [h.ep] at he
    have hep := hs.ep e he
    refine ⟨by rw [hc.occ_eq, hep.empty]; rfl, ?_⟩
    obtain ⟨v, hv⟩ : ∃ v, Along e (forward pos.side.xside) 1 v := by
      have hstep := step_forward pos.side.xside e (by
        rw [hep.rank]
        cases pos.side <;> decide)
      exact ⟨_, step_eq_some.mp hstep⟩
    refine ⟨v, getEppawn_eq h.ep he hep.rank hv, ?_⟩
    rw [hc.mem_pos, h.side]
    exact hep.pawn v hv

/-- **The board invariant holds on every run, for any key tables.** -/
theorem reachedWithNull_boardInvariant (h : ReachedWithNull b) : BoardInvariant b := by
  obtain ⟨pos, hsim, hs⟩ := h.sim
  exact hsim.boardInvariant hs

end Invariant

theorem opening_not_inCheck : ¬ opening.InCheck := by
  rintro ⟨sq, hk, s, p, hs, hr⟩
  have h : ∀ sq, openingMan sq = some (.white, .king) →
      ∀ s p, openingMan s = some (.black, p) → sq ∉ reach openingMan .black p s := by
    decide
  exact h sq hk s p hs hr

/-- The invariant after a null move from the opening position. -/
theorem boardInvariant_after_null :
    ∃ b, @Board.parseFen sampleBuild openingFen = .accepted b ∧
      @BoardInvariant sampleBuild (@Board.makeMove sampleBuild b .null) := by
  let _ := sampleBuild
  obtain ⟨b, hb, hsim⟩ := parseFen_opening
  refine ⟨b, hb, reachedWithNull_boardInvariant (.null (.opening hb) ?_)⟩
  rw [← Bool.not_eq_true, hsim.inCheck (sane_opening.king_exists _)]
  exact opening_not_inCheck

end HoiChess.Chess
