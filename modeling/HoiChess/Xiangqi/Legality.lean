import HoiChess.Xiangqi.Generate

/-!
# Legality

`kings_facing` walks up the file from the white king, and meets the black one or another man
before it leaves the board, since the generals are in their palaces (`Sim.kingsFacingWalk`).
With it `is_legal` and `in_check` say what the rules say, and `filter_illegal` keeps the
legal moves.
-/

namespace HoiChess.Xiangqi

open Grid Rules
open Chess (Color PerColor)

/-! ## The walk between the kings -/

/-- Nobody on the file of `t` from the rank of `s` to below `t`. -/
def FreeUpTo (man : Placement) (s t : Square) : Prop :=
  ∀ u, fil u = fil t → rnk s ≤ rnk u → rnk u < rnk t → man u = none

/-- The next square up the file. -/
def up (s : Square) (h : rnk s < 9) : Square := ⟨s.val + 9, by have := square_val s; have := fil_lt s; omega⟩

theorem fil_up (s : Square) (h : rnk s < 9) : fil (up s h) = fil s := by
  unfold fil up; simp only; omega

theorem rnk_up (s : Square) (h : rnk s < 9) : rnk (up s h) = rnk s + 1 := by
  unfold rnk up; simp only; omega

theorem freeUpTo_step {man : Placement} {s t : Square} (h : rnk s < 9) (hf : fil s = fil t)
    (hlt : rnk s < rnk t) :
    FreeUpTo man s t ↔ man s = none ∧ FreeUpTo man (up s h) t := by
  constructor
  · refine fun hfree => ⟨hfree s hf (Nat.le_refl _) hlt, fun u hu h1 h2 => hfree u hu ?_ h2⟩
    rw [rnk_up] at h1
    omega
  · rintro ⟨hs, hfree⟩ u hu h1 h2
    rcases Nat.eq_or_lt_of_le h1 with heq | hlt'
    · rw [← square_ext (hf.trans hu.symm) heq]
      exact hs
    · exact hfree u hu (by rw [rnk_up]; exact hlt') h2

/-- **Between two squares of a file the walk has an outcome.** -/
theorem facingLoop_eq {b : Board} {man : Placement} (hcol : Colored b man) {t : Square} (fuel : Nat)
    {s : Square} (hf : fil s = fil t) (hr : rnk s ≤ rnk t) (hfuel : rnk t < rnk s + fuel) :
    ∃ r, b.facingLoop t.val fuel s.val = some r ∧ (r = true ↔ FreeUpTo man s t) := by
  induction fuel generalizing s with
  | zero => omega
  | succ fuel ih =>
    rw [Board.facingLoop]
    by_cases hst : s = t
    · subst hst
      refine ⟨true, by rw [if_pos rfl], iff_of_true rfl fun u _ h1 h2 => ?_⟩
      omega
    · have hlt : rnk s < rnk t := by
        rcases Nat.eq_or_lt_of_le hr with heq | hlt
        · exact absurd (square_ext hf heq) hst
        · exact hlt
      have h9 : rnk s < 9 := by have := rnk_lt t; omega
      have hne : (s.val : Int) ≠ t.val := fun e => hst (Fin.ext (by omega))
      have hin : (0 : Int) ≤ s.val ∧ (s.val : Int) < 90 := by have := s.isLt; omega
      have hsq : (⟨(s.val : Int).toNat, by omega⟩ : Square) = s := Fin.ext (by simp)
      rw [if_neg hne, dif_pos hin, hsq]
      by_cases hm : man s = none
      · rw [if_neg (not_not.mpr ((hcol.eq_none s).mpr hm))]
        have hup : (s.val : Int) + 9 = (up s h9).val := by unfold up; push_cast; rfl
        obtain ⟨r, hr', hiff⟩ := ih (s := up s h9) ((fil_up s h9).trans hf) (by rw [rnk_up]; omega)
          (by rw [rnk_up]; omega)
        refine ⟨r, by rw [hup]; exact hr', hiff.trans ?_⟩
        rw [freeUpTo_step h9 hf hlt]
        exact (and_iff_right hm).symm
      · rw [if_pos (fun e => hm ((hcol.eq_none s).mp e))]
        refine ⟨false, rfl, iff_of_false (by decide) fun hfree => hm ?_⟩
        exact hfree s hf (Nat.le_refl _) hlt

/-- On a file, between is between the ranks. -/
theorem between_file {s t : Square} (hf : fil s = fil t) (hlt : rnk s < rnk t) (u : Square) :
    Between s t u ↔ fil u = fil t ∧ rnk s < rnk u ∧ rnk u < rnk t := by
  have hst : Along s (0, 1) (rnk t - rnk s) t := by
    constructor
    · rw [grid_x, grid_x, hf]; simp
    · rw [grid_y, grid_y]; push_cast [Nat.le_of_lt hlt]; ring
  rw [hst.between_iff (by decide) (by omega)]
  constructor
  · rintro ⟨j, h0, hj, hx, hy⟩
    rw [grid_x, grid_x] at hx
    rw [grid_y, grid_y] at hy
    simp only at hx hy
    omega
  · rintro ⟨hu, h1, h2⟩
    refine ⟨rnk u - rnk s, by omega, by omega, ?_, ?_⟩
    · rw [grid_x, grid_x, hu, hf]; simp
    · rw [grid_y, grid_y]; push_cast [Nat.le_of_lt h1]; ring

theorem clear_file {man : Placement} {s t : Square} (h : rnk s < 9) (hf : fil s = fil t)
    (hlt : rnk s < rnk t) : Clear man s t ↔ FreeUpTo man (up s h) t := by
  unfold Clear FreeUpTo
  refine forall_congr' fun u => ?_
  rw [between_file hf hlt, rnk_up]
  exact ⟨fun hc hu h1 h2 => hc ⟨hu, h1, h2⟩, fun hc ⟨hu, h1, h2⟩ => hc hu h1 h2⟩

section Keys

variable [Keys] {b : Board} {pos : Position}

namespace Sim

/-- **`kings_facing` ends on the board**, and says whether the generals look at each other. -/
theorem kingsFacingWalk (h : Sim b pos) (hv : Valid pos) :
    ∃ r, b.kingsFacingWalk = some r ∧ (r = true ↔ Facing pos.man) := by
  obtain ⟨w, hw⟩ := hv.king_exists .white
  obtain ⟨k, hk⟩ := hv.king_exists .black
  have hw3 : rnk w ≤ 2 := (hv.inPlace _ _ _ hw).2
  have hk7 : 7 ≤ rnk k := (hv.inPlace _ _ _ hk).2
  have hfacing : Facing pos.man ↔ fil w = fil k ∧ Clear pos.man w k := by
    constructor
    · rintro ⟨w', k', hw', hk', hf⟩
      rw [hv.king_unique _ _ _ hw hw', hv.king_unique _ _ _ hk hk']
      exact hf
    · exact fun hf => ⟨w, k, hw, hk, hf⟩
  have hmod : ∀ sq : Square, (sq.val : Int).tmod 9 = (fil sq : Int) := fun _ => rfl
  have hcond : (w.val : Int).tmod 9 = (k.val : Int).tmod 9 ↔ fil w = fil k := by
    rw [hmod, hmod, Nat.cast_inj]
  have hwalk : b.kingsFacingWalk =
      if ¬ fil w = fil k then some false else b.facingLoop k.val Board.walkFuel (w.val + 9) := by
    unfold Board.kingsFacingWalk
    rw [h.king _ _ hw, h.king _ _ hk]
    exact if_congr (not_congr hcond) rfl rfl
  rw [hwalk, hfacing]
  by_cases hf : fil w = fil k
  · have h9 : rnk w < 9 := by omega
    have hup : (w.val : Int) + 9 = (up w h9).val := by unfold up; push_cast; rfl
    rw [if_neg (not_not.mpr hf), hup]
    obtain ⟨r, hr, hiff⟩ := facingLoop_eq h.consistent.colors Board.walkFuel
      ((fil_up w h9).trans hf) (by rw [rnk_up]; omega)
      (by rw [rnk_up]; have := rnk_lt k; show _ < _ + 10; omega)
    refine ⟨r, hr, hiff.trans ?_⟩
    rw [and_iff_right hf, clear_file h9 hf (by omega)]
  · rw [if_pos hf]
    exact ⟨false, rfl, iff_of_false (by decide) fun e => hf e.1⟩

theorem kingsFacing (h : Sim b pos) (hv : Valid pos) :
    b.kingsFacing = true ↔ Facing pos.man := by
  obtain ⟨r, hr, hiff⟩ := h.kingsFacingWalk hv
  rw [Board.kingsFacing, hr]
  exact hiff

/-! ## Legal positions and moves -/

/-- The own general is neither attacked nor looked at, as `is_legal` computes it. -/
theorem isLegal (h : Sim b pos) (hv : Valid pos) : b.isLegal = true ↔ pos.Safe := by
  obtain ⟨k, hk⟩ := hv.king_exists pos.side.xside
  unfold Board.isLegal
  rw [h.side, h.king _ _ hk, Bool.and_eq_true, Bool.not_eq_true', Bool.not_eq_true',
    ← Bool.not_eq_true, ← Bool.not_eq_true, h.kingsFacing hv, h.isAttacked hv]
  refine and_congr_right fun _ => ⟨fun ha k' hk' => ?_, fun ha => ha k hk⟩
  rw [hv.king_unique _ _ _ hk' hk]
  exact ha

theorem inCheck (h : Sim b pos) (hv : Valid pos) : b.inCheck = true ↔ pos.InCheck := by
  obtain ⟨k, hk⟩ := hv.king_exists pos.side
  have hpass : pos.pass.Safe ↔ ¬ Facing pos.man ∧ ¬ pos.pass.Attacks k := by
    refine and_congr_right fun _ => ⟨fun ha => ha k ?_, fun ha k' hk' => ?_⟩
    · show pos.man k = some (pos.side.xside.xside, .king)
      rw [Chess.xside_xside]
      exact hk
    · have hk'' : pos.man k' = some (pos.side.xside.xside, .king) := hk'
      rw [Chess.xside_xside] at hk''
      rw [hv.king_unique _ _ _ hk'' hk]
      exact ha
  unfold Board.inCheck Position.InCheck
  rw [h.side, h.king _ _ hk, Bool.or_eq_true, h.kingsFacing hv, h.isAttacked_xside hv, hpass]
  exact or_iff_not_and_not

theorem isLegalMove (h : Sim b pos) (hs : Sane pos) {ply : Ply} (hp : pos.Pseudo ply) :
    b.isLegalMove ply.encode = true ↔ pos.Legal ply := by
  have hv := hs.toValid.apply hs.safe hp
  unfold Board.isLegalMove
  rw [(h.makeMove hs.toValid hs.safe hp).isLegal hv]
  exact (and_iff_right hp).symm

/-- `filter_illegal` keeps the moves that pass, in some order. -/
theorem legalMoves_perm (b : Board) :
    b.legalMoves.moves.Perm ((b.generateMoves .empty).moves.filter b.isLegalMove) := by
  have h := (Capped.filter_perm (b.generateMoves .empty) (fun e => b.isLegalMove e.1)).map Prod.fst
  have hmap : (((b.generateMoves .empty).entries.filter (fun e => b.isLegalMove e.1)).map Prod.fst) =
      (b.generateMoves .empty).moves.filter b.isLegalMove := by
    unfold Movelist.moves
    rw [List.filter_map]
    rfl
  rw [hmap] at h
  exact h

/-- **The legal moves of the program are those of the rules.** -/
theorem mem_legalMoves (h : Sim b pos) (hs : Sane pos) {mov : Move} :
    mov ∈ b.legalMoves.moves ↔ ∃ ply, pos.Legal ply ∧ ply.encode = mov := by
  rw [(legalMoves_perm b).mem_iff, List.mem_filter, h.mem_generateMoves hs.toValid]
  constructor
  · rintro ⟨⟨ply, hp, rfl⟩, hl⟩
    exact ⟨ply, (h.isLegalMove hs hp).mp hl, rfl⟩
  · rintro ⟨ply, hl, rfl⟩
    exact ⟨⟨ply, hl.1, rfl⟩, (h.isLegalMove hs hl.1).mpr hl⟩

/-- **None is listed twice.** -/
theorem legalMoves_nodup (h : Sim b pos) (hv : Valid pos) : b.legalMoves.moves.Nodup :=
  (legalMoves_perm b).nodup_iff.mpr ((h.generateMoves_nodup hv).filter _)

end Sim

end Keys

end HoiChess.Xiangqi
