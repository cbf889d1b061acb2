import HoiChess.Lib.Run
import HoiChess.Xiangqi.Fen
import HoiChess.Xiangqi.SameMen
import HoiChess.Xiangqi.Reached

/-!
# The positions of a game and their keys

Moves of the move list change the key by what they do to the men, whatever board the game
started on: the key of a position is that of its men and its side up to a constant of the game
(`Keyed.makeMove`).  So equal positions of one game have equal keys (`hashkey_eq_of_same`).
-/

namespace HoiChess.Xiangqi

open Rules Incremental
open Chess (Color PerColor)

variable [k : Keys]

/-- The moves are taken from the move lists of their boards. -/
def Generated (opening : Board) (movs : List Move) : Prop :=
  Run.Along (fun b mov => b.makeMove mov) (fun b mov => mov ∈ (b.generateMoves .empty).moves) opening movs

/-- The position after the first `i` of the moves. -/
def position (opening : Board) (movs : List Move) (i : Nat) : Board :=
  Run.run (fun b mov => b.makeMove mov) opening (movs.take i)

/-- `position_pieces` and `position_colors` tell the same squares empty. -/
def Board.Paired (b : Board) : Prop := ∀ sq, b.pieceAt sq = none ↔ b.colorAt sq = none

/-! ## What a generated move does to the men -/

section Moves

variable {b : Board} {man : Placement} {mov : Move}

theorem Consistent.man_eq (h : Consistent b man) {sq : Square} {c : Color} {p : Piece}
    (hc : b.colorAt sq = some c) (hp : b.pieceAt sq = some p) : man sq = some (c, p) := by
  have hcolor := h.colors sq
  have hpiece := h.pieces sq
  rw [hc] at hcolor
  rw [hp] at hpiece
  cases hm : man sq with
  | none =>
    rw [hm] at hcolor
    cases hcolor
  | some m =>
    rw [hm] at hcolor hpiece
    exact congrArg some (Prod.ext (Option.some.inj hcolor).symm (Option.some.inj hpiece).symm)

/-- **Moves of the list keep the redundant fields right**, also where the position is none of
the rules. -/
theorem Consistent.makeMove (h : Consistent b man) (hm : mov ∈ (b.generateMoves .empty).moves) :
    ∃ man', Consistent (b.makeMove mov) man' := by
  have hfound : ∀ {add}, mov ∈ b.found add → ∃ src p dst, b.colorAt src = some b.side ∧
      b.pieceAt src = some p ∧ mov ∈ add src p dst := by
    intro add hadd
    obtain ⟨src, _, hfrom⟩ := List.mem_flatMap.mp hadd
    obtain ⟨hc, p, hp, dst, _, hmov⟩ := Board.mem_movesFrom.mp hfrom
    exact ⟨src, p, dst, hc, hp, hmov⟩
  rcases mem_found_of_mem_generateMoves hm with hmem | hmem
  · obtain ⟨src, p, dst, hc, hp, hmov⟩ := hfound hmem
    obtain ⟨hdc, q, hq, rfl⟩ := Board.mem_captureTo.mp hmov
    have hsrc := h.man_eq hc hp
    have hdst := h.man_eq hdc hq
    have hne : src ≠ dst := by
      rintro rfl
      rw [hsrc] at hdst
      cases Chess.ne_xside _ (congrArg Prod.fst (Option.some.inj hdst))
    have hmove : Consistent ((b.removePiece dst b.side.xside q).movePiece src dst b.side p) _ :=
      (h.removePiece hdst).movePiece (by rw [Function.update_of_ne hne, hsrc])
        (by rw [Function.update_of_ne hne.symm, Function.update_self])
    rw [← movePieces_encode b ⟨src, dst, p, some q⟩] at hmove
    exact ⟨_, hmove.updateCounters (.capture src dst p q)⟩
  · obtain ⟨src, p, dst, hc, hp, hmov⟩ := hfound hmem
    obtain ⟨hd, rfl⟩ := Board.mem_noncaptureTo.mp hmov
    have hsrc := h.man_eq hc hp
    have hdst : man dst = none := (h.colors.eq_none dst).mp hd
    have hne : src ≠ dst := by
      rintro rfl
      rw [hsrc] at hdst
      cases hdst
    have hmove : Consistent (b.movePiece src dst b.side p) _ :=
      h.movePiece hsrc (by rw [Function.update_of_ne hne.symm, hdst])
    rw [← movePieces_encode b ⟨src, dst, p, none⟩] at hmove
    exact ⟨_, hmove.updateCounters (.normal src dst p)⟩

end Moves

/-! ## Keys -/

/-- The key of men and side. -/
def Board.menKey (b : Board) : Hashkey := xorSum (fun sq => manKey sq (b.manAt sq)) ^^^ sideKey b.side

/-- The key of a board is that of its men and side, up to a constant. -/
structure Keyed (ghost : Hashkey) (b : Board) : Prop where
  paired : b.Paired
  hash : b.hashkey = b.menKey ^^^ ghost

/-- The board with its redundant fields as the men have it, and without king squares. -/
def Board.recount (b : Board) : Board :=
  { b with
    king := .both none
    material := ⟨∑ sq, manValue .white (b.manAt sq), ∑ sq, manValue .black (b.manAt sq)⟩
    hashkey := b.menKey
    pawnhashkey := xorSum (fun sq => manPawnKey sq (b.manAt sq)) ^^^ sideKey b.side }

theorem Board.Paired.recount {b : Board} (h : b.Paired) : Consistent b.recount b.manAt where
  pieces sq := by
    show b.pieceAt sq = _
    have := h sq
    unfold Board.manAt
    cases hc : b.colorAt sq <;> cases hp : b.pieceAt sq <;> simp_all
  colors sq := by
    show b.colorAt sq = _
    have := h sq
    unfold Board.manAt
    cases hc : b.colorAt sq <;> cases hp : b.pieceAt sq <;> simp_all
  king c sq hk := by
    have : (PerColor.both (none : Option Square)).get c = some sq := hk
    cases c <;> cases this
  material c := by cases c <;> rfl
  hash := rfl
  pawnhash := rfl

/-- **What a move does to the men**, on every board alike: nothing, it moves a man, or it takes
one first. -/
theorem movePieces_cases (mov : Move) : (∀ b : Board, b.movePieces mov = b) ∨
    (∃ src dst p, ∀ b : Board, b.movePieces mov = b.movePiece src dst b.side p) ∨
    ∃ src dst p q, ∀ b : Board,
      b.movePieces mov = (b.removePiece dst b.side.xside q).movePiece src dst b.side p := by
  unfold Board.movePieces
  cases mov.movFrom with
  | none => exact Or.inl fun b => rfl
  | some src =>
    cases mov.movTo with
    | none => exact Or.inl fun b => rfl
    | some dst =>
      cases mov.movPtype with
      | none => exact Or.inl fun b => rfl
      | some p =>
        by_cases hcap : mov.isCapture = true
        · cases mov.movCapPtype with
          | none => exact Or.inr (Or.inl ⟨src, dst, p, fun b => if_pos hcap⟩)
          | some q => exact Or.inr (Or.inr ⟨src, dst, p, q, fun b => if_pos hcap⟩)
        · by_cases hnorm : mov.isNormal = true
          · exact Or.inr (Or.inl ⟨src, dst, p, fun b => (if_neg hcap).trans (if_pos hnorm)⟩)
          · exact Or.inl fun b => (if_neg hcap).trans (if_neg hnorm)

theorem side_makeMove (b : Board) (mov : Move) : (b.makeMove mov).side = b.side.xside := by
  show (b.movePieces mov).side.xside = b.side.xside
  rcases movePieces_cases mov with h | ⟨src, dst, p, h⟩ | ⟨src, dst, p, q, h⟩
  · rw [h b]
  · rw [h b]
    rfl
  · rw [h b]
    rfl

/-- A move changes the key by an amount that depends on the side to move only. -/
theorem hashkey_makeMove (mov : Move) (c : Color) :
    ∃ d, ∀ b : Board, b.side = c → (b.makeMove mov).hashkey = b.hashkey ^^^ d := by
  have hpieces : ∃ d, ∀ b : Board, b.side = c → (b.movePieces mov).hashkey = b.hashkey ^^^ d := by
    rcases movePieces_cases mov with h | ⟨src, dst, p, h⟩ | ⟨src, dst, p, q, h⟩
    · exact ⟨0#64, fun b _ => by rw [h b, BitVec.xor_zero]⟩
    · refine ⟨k.hashkeys c p src ^^^ k.hashkeys c p dst, ?_⟩
      rintro b rfl
      rw [h b]
      exact BitVec.xor_assoc _ _ _
    · refine ⟨k.hashkeys c.xside q dst ^^^ (k.hashkeys c p src ^^^ k.hashkeys c p dst), ?_⟩
      rintro b rfl
      rw [h b]
      exact (BitVec.xor_assoc _ _ _).trans (BitVec.xor_assoc _ _ _)
  obtain ⟨d, hd⟩ := hpieces
  refine ⟨d ^^^ k.hashSide, fun b hb => ?_⟩
  show (b.movePieces mov).hashkey ^^^ k.hashSide = _
  rw [hd b hb, BitVec.xor_assoc]

/-- The men of a board after a move do not depend on the redundant fields. -/
theorem Board.recount_makeMove (b : Board) (mov : Move) :
    (b.recount.makeMove mov).positionPieces = (b.makeMove mov).positionPieces ∧
      (b.recount.makeMove mov).positionColors = (b.makeMove mov).positionColors := by
  show (b.recount.movePieces mov).positionPieces = (b.movePieces mov).positionPieces ∧
    (b.recount.movePieces mov).positionColors = (b.movePieces mov).positionColors
  rcases movePieces_cases mov with h | ⟨src, dst, p, h⟩ | ⟨src, dst, p, q, h⟩
  · rw [h b, h b.recount]
    exact ⟨rfl, rfl⟩
  · rw [h b, h b.recount]
    exact ⟨rfl, rfl⟩
  · rw [h b, h b.recount]
    exact ⟨rfl, rfl⟩

/-- **Generated moves keep the constant.** -/
theorem Keyed.makeMove {ghost : Hashkey} {b : Board} {mov : Move} (h : Keyed ghost b)
    (hm : mov ∈ (b.generateMoves .empty).moves) : Keyed ghost (b.makeMove mov) := by
  have hlist : b.recount.generateMoves .empty = b.generateMoves .empty :=
    generateMoves_congr rfl rfl rfl _
  obtain ⟨man, hc⟩ := h.paired.recount.makeMove (by rw [hlist]; exact hm)
  obtain ⟨hp, hcol⟩ := b.recount_makeMove mov
  have hman : (b.makeMove mov).manAt = man := by
    rw [← hc.manAt_eq]
    funext sq
    simp only [Board.manAt, Board.colorAt, Board.pieceAt, hp, hcol]
  obtain ⟨d, hd⟩ := hashkey_makeMove mov b.side
  have hkey : (b.recount.makeMove mov).hashkey = b.menKey ^^^ d := hd b.recount rfl
  refine ⟨fun sq => ?_, ?_⟩
  · rw [Board.pieceAt, Board.colorAt, ← hp, ← hcol]
    rw [show (b.recount.makeMove mov).positionPieces sq = _ from hc.pieces sq,
      show (b.recount.makeMove mov).positionColors sq = _ from hc.colors sq,
      Option.map_eq_none_iff, Option.map_eq_none_iff]
  · have hmen : (b.makeMove mov).menKey = b.menKey ^^^ d := by
      rw [← hkey, hc.hash, Board.menKey, hman, side_makeMove, side_makeMove]
      rfl
    rw [hd b rfl, h.hash, hmen, BitVec.xor_assoc, BitVec.xor_assoc, BitVec.xor_comm ghost d]

theorem Board.Paired.placeAll {b b' : Board} {ps : List Placing} (h : b.Paired)
    (hb : b.placeAll ps = some b') : b'.Paired := by
  induction ps generalizing b with
  | nil =>
    cases hb
    exact h
  | cons p ps ih =>
    rw [Board.placeAll] at hb
    cases hsq : p.sq with
    | none =>
      rw [hsq] at hb
      cases hb
    | some sq =>
      rw [hsq] at hb
      refine ih (fun t => ?_) hb
      show Function.update b.positionPieces sq (some p.man.2) t = none ↔
        Function.update b.positionColors sq (some p.man.1) t = none
      by_cases ht : t = sq
      · rw [ht, Function.update_self, Function.update_self]
        exact iff_of_false (Option.some_ne_none _) (Option.some_ne_none _)
      · rw [Function.update_of_ne ht, Function.update_of_ne ht]
        exact h t

theorem paired_of_parseFenFields {f : FenFields} {b : Board}
    (h : Board.parseFenFields f = .accepted b) : b.Paired := by
  unfold Board.parseFenFields at h
  dsimp only at h
  split at h
  · cases h
  · rename_i b0 hb0
    split at h
    · split at h
      · cases h
      · rename_i c _
        have hpaired : b0.Paired := Board.Paired.placeAll (fun sq => iff_of_true rfl rfl) hb0
        obtain ⟨hp, hc, _⟩ := b0.setSide_frame c
        rw [eq_of_checked h]
        intro sq
        show (b0.setSide c).positionPieces sq = none ↔ (b0.setSide c).positionColors sq = none
        rw [hp, hc]
        exact hpaired sq
    · cases h

/-- **Every board that `parse_fen` accepts is paired.** -/
theorem paired_of_parseFen {s : String} {b : Board} (h : Board.parseFen s = .accepted b) :
    b.Paired := by
  unfold Board.parseFen at h
  split at h
  · cases h
  · exact paired_of_parseFenFields h

/-- A paired board is keyed by what its key has too much. -/
theorem Board.Paired.keyed {b : Board} (h : b.Paired) : Keyed (b.menKey ^^^ b.hashkey) b where
  paired := h
  hash := by
    rw [← BitVec.xor_assoc, BitVec.xor_self, BitVec.zero_xor]

section Run

variable {opening : Board} {movs : List Move}

/-- **Equal positions of a game have equal keys.** -/
theorem hashkey_eq_of_same (hopen : opening.Paired) (hgen : Generated opening movs) {i j : Nat}
    (hi : i ≤ movs.length) (hj : j ≤ movs.length)
    (h : (position opening movs i).Same (position opening movs j)) :
    (position opening movs i).hashkey = (position opening movs j).hashkey := by
  have hkeyed := (Run.visits_iff _ _).mp (hgen.visits hopen.keyed fun b mov hb hm => hb.makeMove hm)
  have hmen : (position opening movs i).menKey = (position opening movs j).menKey := by
    simp only [Board.menKey, Board.manAt, Board.colorAt, Board.pieceAt, h.pieces, h.colors, h.side]
  rw [show (position opening movs i).hashkey = _ from (hkeyed i hi).hash,
    show (position opening movs j).hashkey = _ from (hkeyed j hj).hash]
  exact congrArg (· ^^^ _) hmen

theorem position_succ (opening : Board) {i : Nat} (hi : i < movs.length) :
    position opening movs (i + 1) = (position opening movs i).makeMove movs[i] := by
  unfold position Run.run
  rw [List.take_succ_eq_append_getElem hi, List.foldl_append]
  rfl

/-- The side to move depends on the number of moves only. -/
theorem side_position (opening : Board) {i j : Nat} (hj : i + j ≤ movs.length) :
    (position opening movs (i + j)).side = (position opening movs i).side ↔ j % 2 = 0 := by
  have hboth : ∀ c : Color, c.xside ≠ c := Chess.xside_ne
  induction j with
  | zero => simp
  | succ j ih =>
    have hih := ih (by omega)
    rw [← Nat.add_assoc, position_succ opening (by omega), side_makeMove]
    by_cases h : (position opening movs (i + j)).side = (position opening movs i).side
    · rw [h]
      have := hih.mp h
      exact iff_of_false (hboth _) (by omega)
    · have hne := mt hih.mpr h
      rw [Chess.eq_xside_of_ne h, Chess.xside_xside]
      exact iff_of_true rfl (by omega)

end Run

end HoiChess.Xiangqi
