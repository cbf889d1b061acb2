import HoiChess.Chess.Mobility
import HoiChess.Chess.Reached

/-!
# Move generation is the rules of chess

`Played` are the positions that the rules alone reach from the opening.  Every
board that the program reaches stands for one of them (`Reached.sim`), no
position of a game has more moves than a move list holds, and so the lists are
exactly the moves of the rules (`reached_generatesRules`).
-/

namespace HoiChess.Chess

open WordSet Grid Rules Incremental

namespace Rules

/-- Reached from the opening position by legal moves of the rules. -/
inductive Played : Position → Prop
  | opening : Played opening
  | move {pos : Position} {ply : Ply} : Played pos → pos.Legal ply → Played (pos.apply ply)

theorem Played.sane {pos : Position} (h : Played pos) : Sane pos := by
  induction h with
  | opening => exact sane_opening
  | move _ hl ih => exact ih.apply hl

theorem materialOk_opening : MaterialOk opening := by
  have h : ∀ c, surplus openingMan c ≤ 8 := by decide
  exact h

theorem Played.materialOk {pos : Position} (h : Played pos) : MaterialOk pos := by
  induction h with
  | opening => exact materialOk_opening
  | move hp hl ih => exact ih.apply hp.sane hl.1

/-- Every move of the list is legal when its turn comes. -/
def Line (pos : Position) : List Ply → Prop
  | [] => True
  | ply :: l => pos.Legal ply ∧ Line (pos.apply ply) l

instance : ∀ (l : List Ply) (pos : Position), Decidable (Line pos l)
  | [], _ => inferInstanceAs (Decidable True)
  | ply :: l, pos =>
    have := instDecidableLine l (pos.apply ply)
    inferInstanceAs (Decidable (pos.Legal ply ∧ _))

end Rules

/-- The word `mov` says all that there is to say about the move `ply`. -/
structure Move.Describes (mov : Move) (ply : Ply) : Prop where
  fromSq : mov.fromSq = ply.src
  toSq : mov.toSq = ply.dst
  ptype : mov.ptype = some ply.piece
  capPtype : mov.capPtype = ply.captured
  promotion : mov.isPromotion = ply.isPromote
  promoteTo : ply.isPromote = true → mov.promoteTo = some ply.placed
  enpassant : mov.isEnpassant = ply.isEp
  castle : mov.isCastle = ply.isCastling
  capture : mov.isCapture = (ply.captured.isSome && !ply.isEp)
  normal : mov.isNormal = (ply.captured.isNone && !ply.isCastling)
  null : mov.isNull = false

theorem describes_encode (ply : Ply) : ply.encode.Describes ply where
  fromSq := by simp
  toSq := by simp
  ptype := by simp
  capPtype := by simp
  promotion := by simp
  promoteTo h := by
    rw [Ply.promoteTo_encode]
    cases ply <;> rfl
  enpassant := by simp
  castle := by simp
  capture := by simp
  normal := by simp
  null := by simp

/-- Plies that are pseudo-legal and distinct fit into an empty move list. -/
theorem addAll_plies_moves {pos : Position} (hs : Sane pos) (hm : MaterialOk pos) {l : List Ply}
    (hl : l.Nodup) (hp : ∀ ply ∈ l, pos.Pseudo ply) :
    (Movelist.empty.addAll (l.map Ply.encode)).moves = l.map Ply.encode := by
  have hlen := pseudo_length_le hs hm hl hp
  rw [Movelist.addAll_moves, Movelist.moves_empty, List.nil_append]
  rw [List.length_map]
  exact (Nat.zero_add _).trans_le hlen

theorem chosen_of_pseudo {pos : Position} {ply : Ply} (h : pos.Pseudo ply) : ply.Chosen true := by
  cases ply with
  | promote src dst p cap => exact h.2.2
  | _ => trivial

section Exact

variable [k : Build]

/-- What generation has to list on a board: every move of the rules exactly once. -/
structure GeneratesRules (b : Board) : Prop where
  played : Played b.abs
  legal_nodup : b.legalMoves.moves.Nodup
  legal : ∀ mov, mov ∈ b.legalMoves.moves ↔
    ∃ ply, b.abs.Legal ply ∧ mov = ply.encode ∧ mov.Describes ply
  captures_nodup : (b.generateCaptures true .empty).moves.Nodup
  captures : ∀ mov, mov ∈ (b.generateCaptures true .empty).moves ↔
    ∃ ply, b.abs.Pseudo ply ∧ ply.isTactical = true ∧ mov = ply.encode ∧ mov.Describes ply
  noncaptures_nodup : (b.generateNoncaptures .empty).moves.Nodup
  noncaptures : ∀ mov, mov ∈ (b.generateNoncaptures .empty).moves ↔
    ∃ ply, b.abs.Pseudo ply ∧ ply.isTactical = false ∧ mov = ply.encode ∧ mov.Describes ply

variable {b : Board} {pos : Position}

/-- **Runs of the program follow games of the rules.** -/
theorem Reached.sim (h : Reached b) : ∃ pos, Sim b pos ∧ Played pos := by
  induction h with
  | opening h =>
    obtain ⟨b', hb', hsim⟩ := parseFen_opening
    rw [h] at hb'
    cases hb'
    exact ⟨Rules.opening, hsim, .opening⟩
  | move _ hm ih =>
    obtain ⟨pos, hsim, hp⟩ := ih
    obtain ⟨ply, rfl, hl⟩ := hsim.of_mem_filterIllegal hp.sane hm
    exact ⟨pos.apply ply, hsim.makeMove hp.sane hl.1, hp.move hl⟩

theorem Reached.sim_abs (h : Reached b) : Sim b b.abs ∧ Played b.abs := by
  obtain ⟨pos, hsim, hp⟩ := h.sim
  rw [hsim.abs_eq]
  exact ⟨hsim, hp⟩

/-- Every legal move of the rules can be continued with. -/
theorem Sim.mem_plies_iff (h : Sim b pos) (hs : Sane pos) (allpromo : Bool) (ply : Ply) :
    ply ∈ b.plies allpromo ↔ pos.Pseudo ply ∧ ply.Chosen allpromo := by
  rw [h.mem_plies hs.toValid, listed_iff_pseudo hs]

theorem Sim.generateMoves_moves (h : Sim b pos) (hs : Sane pos) (hm : MaterialOk pos)
    (allpromo : Bool) :
    (b.generateMoves allpromo .empty).moves = (b.plies allpromo).map Ply.encode := by
  rw [generateMoves_eq h.consistent]
  exact addAll_plies_moves hs hm (h.plies_nodup hs.toValid allpromo)
    (fun ply hp => ((h.mem_plies_iff hs allpromo ply).mp hp).1)

theorem Sim.mem_generateMoves (h : Sim b pos) (hs : Sane pos) (hm : MaterialOk pos)
    (allpromo : Bool) (mov : Move) :
    mov ∈ (b.generateMoves allpromo .empty).moves ↔
      ∃ ply, mov = ply.encode ∧ pos.Pseudo ply ∧ ply.Chosen allpromo := by
  rw [h.generateMoves_moves hs hm, List.mem_map]
  simp only [h.mem_plies_iff hs]
  constructor
  · rintro ⟨ply, hp, rfl⟩
    exact ⟨ply, rfl, hp⟩
  · rintro ⟨ply, rfl, hp⟩
    exact ⟨ply, hp, rfl⟩

theorem Sim.mem_filterIllegal_generateMoves (h : Sim b pos) (hs : Sane pos) (hm : MaterialOk pos)
    (allpromo : Bool) (mov : Move) :
    mov ∈ (b.filterIllegal (b.generateMoves allpromo .empty)).moves ↔
      ∃ ply, mov = ply.encode ∧ pos.Legal ply ∧ ply.Chosen allpromo := by
  rw [Board.filterIllegal, Movelist.mem_filterBy, h.mem_generateMoves hs hm]
  constructor
  · rintro ⟨⟨ply, rfl, hp, hc⟩, hl⟩
    exact ⟨ply, rfl, ⟨hp, (h.isLegalMove hs hp).mp hl⟩, hc⟩
  · rintro ⟨ply, rfl, ⟨hp, hl⟩, hc⟩
    exact ⟨⟨ply, rfl, hp, hc⟩, (h.isLegalMove hs hp).mpr hl⟩

/-- **`filter_illegal` leaves exactly the legal moves.** -/
theorem Sim.mem_legalMoves (h : Sim b pos) (hs : Sane pos) (hm : MaterialOk pos) (mov : Move) :
    mov ∈ b.legalMoves.moves ↔ ∃ ply, mov = ply.encode ∧ pos.Legal ply := by
  rw [Board.legalMoves, h.mem_filterIllegal_generateMoves hs hm]
  exact exists_congr fun ply =>
    and_congr_right fun _ => and_iff_left_of_imp fun hl => chosen_of_pseudo hl.1

theorem Sim.legalMoves_nodup (h : Sim b pos) (hs : Sane pos) (hm : MaterialOk pos)
    (allpromo : Bool) : (b.filterIllegal (b.generateMoves allpromo .empty)).moves.Nodup := by
  apply Movelist.filterBy_nodup
  rw [h.generateMoves_moves hs hm]
  exact encode_nodup (h.plies_nodup hs.toValid allpromo)

/-- The generator of captures lists only pseudo-legal moves, also where the list is too short. -/
theorem Sim.of_mem_generateCaptures (h : Sim b pos) (hs : Sane pos) {allpromo : Bool} {mov : Move}
    (hm : mov ∈ (b.generateCaptures allpromo .empty).moves) : ∃ ply, mov = ply.encode ∧ pos.Pseudo ply := by
  rw [generateCaptures_eq h.consistent, Movelist.addAll_moves_take, Movelist.moves_empty,
    List.nil_append] at hm
  obtain ⟨ply, hp, rfl⟩ := List.mem_map.mp (List.mem_of_mem_take hm)
  exact ⟨ply, rfl, (listed_iff_pseudo hs ply).mp ((h.mem_capturePlies hs.toValid allpromo ply).mp hp).1⟩

theorem Sim.generateCaptures_moves (h : Sim b pos) (hs : Sane pos) (hm : MaterialOk pos)
    (allpromo : Bool) :
    (b.generateCaptures allpromo .empty).moves = (b.capturePlies allpromo).map Ply.encode := by
  rw [generateCaptures_eq h.consistent]
  exact addAll_plies_moves hs hm (h.capturePlies_nodup allpromo) fun ply hp =>
    (listed_iff_pseudo hs ply).mp ((h.mem_capturePlies hs.toValid allpromo ply).mp hp).1

theorem Sim.generateNoncaptures_moves (h : Sim b pos) (hs : Sane pos) (hm : MaterialOk pos) :
    (b.generateNoncaptures .empty).moves = b.noncapturePlies.map Ply.encode := by
  rw [generateNoncaptures_eq]
  exact addAll_plies_moves hs hm (noncapturePlies_nodup b) fun ply hp =>
    (listed_iff_pseudo hs ply).mp ((h.mem_noncapturePlies hs.toValid ply).mp hp).1

/-- **Move generation is exactly the rules of chess**, on every board of a game. -/
theorem reached_generatesRules (h : Reached b) : GeneratesRules b := by
  obtain ⟨hsim, hp⟩ := h.sim_abs
  have hs := hp.sane
  have hm := hp.materialOk
  refine ⟨hp, hsim.legalMoves_nodup hs hm true, fun mov => ?_, ?_, fun mov => ?_, ?_,
    fun mov => ?_⟩
  · rw [hsim.mem_legalMoves hs hm]
    constructor
    · rintro ⟨ply, rfl, hl⟩
      exact ⟨ply, hl, rfl, describes_encode ply⟩
    · rintro ⟨ply, hl, rfl, _⟩
      exact ⟨ply, rfl, hl⟩
  · rw [hsim.generateCaptures_moves hs hm]
    exact encode_nodup (hsim.capturePlies_nodup true)
  · rw [hsim.generateCaptures_moves hs hm, List.mem_map]
    simp only [hsim.mem_capturePlies hs.toValid, listed_iff_pseudo hs]
    constructor
    · rintro ⟨ply, ⟨h1, h2, _⟩, rfl⟩
      exact ⟨ply, h1, h2, rfl, describes_encode ply⟩
    · rintro ⟨ply, h1, h2, rfl, _⟩
      exact ⟨ply, ⟨h1, h2, chosen_of_pseudo h1⟩, rfl⟩
  · rw [hsim.generateNoncaptures_moves hs hm]
    exact encode_nodup (noncapturePlies_nodup b)
  · rw [hsim.generateNoncaptures_moves hs hm, List.mem_map]
    simp only [hsim.mem_noncapturePlies hs.toValid, listed_iff_pseudo hs]
    constructor
    · rintro ⟨ply, ⟨h1, h2⟩, rfl⟩
      exact ⟨ply, h1, h2, rfl, describes_encode ply⟩
    · rintro ⟨ply, h1, h2, rfl, _⟩
      exact ⟨ply, ⟨h1, h2⟩, rfl⟩

/-- **Legal moves of the rules can be played on the board.** -/
theorem Reached.playAll (h : Reached b) (hsim : Sim b pos) (hp : Played pos) {l : List Ply}
    (hl : Line pos l) : Reached (l.foldl (fun b ply => b.makeMove ply.encode) b) := by
  induction l generalizing b pos with
  | nil => exact h
  | cons ply l ih =>
    obtain ⟨hlegal, hrest⟩ := hl
    have hmem : ply.encode ∈ b.legalMoves.moves :=
      (hsim.mem_legalMoves hp.sane hp.materialOk _).mpr ⟨ply, rfl, hlegal⟩
    exact ih (h.move hmem) (hsim.makeMove hp.sane hlegal.1) (hp.move hlegal) hrest

theorem Sim.playAll (hsim : Sim b pos) (hp : Played pos) {l : List Ply} (hl : Line pos l) :
    Sim (l.foldl (fun b ply => b.makeMove ply.encode) b) (l.foldl Position.apply pos) ∧
      Played (l.foldl Position.apply pos) := by
  induction l generalizing b pos with
  | nil => exact ⟨hsim, hp⟩
  | cons ply l ih =>
    obtain ⟨hlegal, hrest⟩ := hl
    exact ih (hsim.makeMove hp.sane hlegal.1) (hp.move hlegal) hrest

theorem reached_line {l : List Ply} (hl : Line Rules.opening l) :
    ∃ b, Reached b ∧ Sim b (l.foldl Position.apply Rules.opening) ∧
      Played (l.foldl Position.apply Rules.opening) := by
  obtain ⟨b, hb, hsim⟩ := parseFen_opening
  exact ⟨_, Reached.playAll (.opening hb) hsim .opening hl, hsim.playAll .opening hl⟩

end Exact

/-- Exact generation on the opening board. -/
theorem generatesRules_opening : ∃ b, @Board.parseFen sampleBuild openingFen = .accepted b ∧
    @GeneratesRules sampleBuild b := by
  let _ := sampleBuild
  obtain ⟨b, hb, _⟩ := parseFen_opening
  exact ⟨b, hb, reached_generatesRules (.opening hb)⟩

end HoiChess.Chess
