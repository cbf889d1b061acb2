import HoiChess.Chess.PawnLoop
import HoiChess.Lib.Reflection
import Mathlib.Tactic.MkIffOfInductiveProp

/-!
# The board seen from the other side

`Mirrored b b'` are two boards of which the second is the first with its ranks in reverse order and
the colours swapped.  Tables and masks look the same to both sides (`renames_passedPawnMask` and
its neighbours), lookups in the rotated occupancies do, and so every plugin gives a side of `b`
what it gives the other side of `b'` (`Mirrored.scorePlugins`, `Mirrored.scoreControl`); of the
pawns this is true without the bonus for connected passed pawns (`Mirrored.scorePawnsLoop`).
-/

namespace HoiChess.Chess

open WordSet Grid

/-! ## Mirrored squares, tables and masks -/

theorem rnk_xsquare (sq : Square) : rnk (xsquare sq) = 7 - rnk sq := by revert sq; decide

theorem fil_xsquare (sq : Square) : fil (xsquare sq) = fil sq := by revert sq; decide

theorem fileOf_xsquare (sq : Square) : fileOf (xsquare sq) = fileOf sq := Fin.ext (fil_xsquare sq)

theorem xsquare_xsquare (sq : Square) : xsquare (xsquare sq) = sq := by revert sq; decide

/-- Mirroring as a renaming of the squares. -/
def mirror : Equiv.Perm Square := ⟨xsquare, xsquare, xsquare_xsquare, xsquare_xsquare⟩

@[simp] theorem mirror_apply (sq : Square) : mirror sq = xsquare sq := rfl

theorem mirror_upside : Upside mirror where
  x sq := by rw [mirror_apply, grid_x, grid_x, fil_xsquare]
  y sq := by
    have h := rnk_lt sq
    rw [mirror_apply, grid_y, grid_y, rnk_xsquare, grid_height]
    omega

theorem sideSquare_xside (c : Color) (sq : Square) :
    sideSquare c.xside (xsquare sq) = sideSquare c sq := by
  cases c
  · exact xsquare_xsquare sq
  · rfl

theorem rnk_eq_sideRank_xside (c : Color) {r : Nat} (hr : r < 8) (sq : Square) :
    rnk (xsquare sq) = sideRank c.xside r ↔ rnk sq = sideRank c r := by
  have h := rnk_lt sq
  rw [rnk_xsquare]
  cases c <;> simp only [Color.xside, sideRank] <;> omega

/-- The distance to the promotion rank. -/
theorem dist_xside (c : Color) (sq : Square) :
    |(sideRank c.xside rank8 : Int) - rnk (xsquare sq)| = |(sideRank c rank8 : Int) - rnk sq| := by
  have h := rnk_lt sq
  have h8 : rank8 = 7 := rfl
  rw [rnk_xsquare, abs_sub_comm, h8]
  cases c <;> simp only [Color.xside, sideRank] <;> congr 1 <;> omega

section Tables

theorem knightScores_xsquare (sq : Square) : knightScores.get (xsquare sq) = knightScores.get sq := by
  revert sq; decide

theorem kingScores_xsquare (sq : Square) : kingScores.get (xsquare sq) = kingScores.get sq := by
  revert sq; decide

theorem kingScoresEndgame_xsquare (sq : Square) :
    kingScoresEndgame.get (xsquare sq) = kingScoresEndgame.get sq := by
  revert sq; decide

theorem controlScore_xsquare (sq : Square) :
    controlScore.get (xsquare sq) = controlScore.get sq := by
  revert sq; decide

theorem controlMaxattackers_xsquare (sq : Square) :
    controlMaxattackers.get (xsquare sq) = controlMaxattackers.get sq := by
  revert sq; decide

end Tables

section Masks

theorem renames_fileBb (f : Fin 8) : Renames mirror (fileBb f) (fileBb f) := fun sq => by
  rw [mirror_apply, mem_fileBb, mem_fileBb, fil_xsquare]

theorem renames_rankBb {r r' : Fin 8} (h : r'.val = 7 - r.val) :
    Renames mirror (rankBb r) (rankBb r') := fun sq => by
  have hr := rnk_lt sq
  rw [mirror_apply, mem_rankBb, mem_rankBb, rnk_xsquare, decide_eq_decide, h]
  omega

theorem renames_leaper {dirs dirs' : List Dir}
    (hdirs : ∀ d ∈ dirs, (-2 ≤ d.1 ∧ d.1 ≤ 2) ∧ (-2 ≤ d.2 ∧ d.2 ≤ 2))
    (hdirs' : ∀ d ∈ dirs', (-2 ≤ d.1 ∧ d.1 ≤ 2) ∧ (-2 ≤ d.2 ∧ d.2 ≤ 2))
    (h : ∀ d ∈ dirs, upsideDir d ∈ dirs') (h' : ∀ d ∈ dirs', upsideDir d ∈ dirs) (sq : Square) :
    Renames mirror (leaper dirs sq) (leaper dirs' (xsquare sq)) := fun t => by
  rw [Bool.eq_iff_iff, mem_leaper hdirs', mem_leaper hdirs]
  constructor
  · intro ⟨d, hd, ha⟩
    exact ⟨upsideDir d, h' d hd, mirror_upside.along'.mp ha⟩
  · intro ⟨d, hd, ha⟩
    exact ⟨upsideDir d, h d hd, mirror_upside.along.mpr ha⟩

theorem renames_knightAttacks (sq : Square) :
    Renames mirror (Board.knightAttacks sq) (Board.knightAttacks (xsquare sq)) :=
  renames_leaper (by decide) (by decide) (by decide) (by decide) sq

theorem renames_kingAttacks (sq : Square) :
    Renames mirror (Board.kingAttacks sq) (Board.kingAttacks (xsquare sq)) :=
  renames_leaper (by decide) (by decide) (by decide) (by decide) sq

theorem renames_pawnCaptBb (c : Color) (sq : Square) :
    Renames mirror (pawnCaptBb c sq) (pawnCaptBb c.xside (xsquare sq)) := by
  cases c <;> exact renames_leaper (by decide) (by decide) (by decide) (by decide) sq

/-- On the same file or a neighbouring one. -/
def NearFile (f : Fin 8) (t : Square) : Prop := fil t = f.val ∨ fil t + 1 = f.val ∨ fil t = f.val + 1

theorem mkSquare_eq_iff (r f : Fin 8) (t : Square) : mkSquare r f = t ↔ rnk t = r.val ∧ fil t = f.val := by
  have ht := square_val t
  have hf := fil_lt t
  rw [Fin.ext_iff]
  simp only [mkSquare]
  omega

theorem mem_setNear (f r : Fin 8) (bb : Bitboard) (t : Square) :
    mem (setNear f bb r) t = true ↔ mem bb t = true ∨ rnk t = r.val ∧ NearFile f t := by
  have ht := fil_lt t
  unfold setNear NearFile
  by_cases hb : mem bb t = true
  · split <;> split <;> simp [hb]
  · split <;> split <;>
      simp only [mem_insert, Bool.or_eq_true, decide_eq_true_eq, mkSquare_eq_iff, hb,
        Bool.false_eq_true, false_or] <;> omega

theorem mem_foldl_setNear (f : Fin 8) (ranks : List (Fin 8)) (bb : Bitboard) (t : Square) :
    mem (ranks.foldl (setNear f) bb) t = true ↔
      mem bb t = true ∨ (∃ r ∈ ranks, rnk t = r.val) ∧ NearFile f t := by
  induction ranks generalizing bb with
  | nil => simp
  | cons r ranks ih =>
    rw [List.foldl_cons, ih, mem_setNear]
    simp only [List.exists_mem_cons_iff, or_and_right, or_assoc]

/-- In front of the pawn, on its file or next to it. -/
theorem mem_passedPawnMask (c : Color) (sq t : Square) : mem (passedPawnMask c sq) t = true ↔
    (match c with | .white => rnk sq < rnk t | .black => rnk t < rnk sq) ∧ NearFile (fileOf sq) t := by
  have hr : ∃ r : Fin 8, rnk t = r.val := ⟨⟨rnk t, rnk_lt t⟩, rfl⟩
  unfold passedPawnMask
  simp only
  rw [mem_foldl_setNear, mem_zero]
  simp only [Bool.false_eq_true, false_or]
  refine and_congr_left fun _ => ?_
  obtain ⟨r, hr⟩ := hr
  cases c <;> simp only [List.mem_reverse, List.mem_filter, List.mem_finRange, true_and,
    decide_eq_true_eq]
  · refine ⟨?_, fun h => ⟨r, by omega, hr⟩⟩
    rintro ⟨r', h, e⟩
    omega
  · refine ⟨?_, fun h => ⟨r, by omega, hr⟩⟩
    rintro ⟨r', h, e⟩
    omega

theorem renames_passedPawnMask (c : Color) (sq : Square) :
    Renames mirror (passedPawnMask c sq) (passedPawnMask c.xside (xsquare sq)) := fun t => by
  have h1 := rnk_lt sq
  have h2 := rnk_lt t
  rw [Bool.eq_iff_iff, mirror_apply, mem_passedPawnMask, mem_passedPawnMask, NearFile, NearFile,
    fil_xsquare, fileOf_xsquare, rnk_xsquare, rnk_xsquare]
  refine and_congr_left fun _ => ?_
  cases c <;> simp only [Color.xside] <;> omega

theorem renames_isolatedPawnMask (sq : Square) :
    Renames mirror (isolatedPawnMask sq) (isolatedPawnMask (xsquare sq)) := by
  have hfile : isolatedPawnMask (xsquare sq) = isolatedPawnMask sq := by
    unfold isolatedPawnMask
    simp only [fileOf_xsquare]
  rw [hfile]
  unfold isolatedPawnMask
  simp only
  split <;> split
  · exact ((renames_fileBb _).or (renames_fileBb _)).or (renames_fileBb _)
  · exact (renames_fileBb _).or (renames_fileBb _)
  · exact (renames_fileBb _).or (renames_fileBb _)
  · exact renames_fileBb _

theorem renames_kingmask (c : Color) : Renames mirror (kingmask c) (kingmask c.xside) := by
  have h : ∀ c t, mem (kingmask c.xside) (xsquare t) = mem (kingmask c) t := by decide
  exact h c

theorem renames_pawnmask (c : Color) : Renames mirror (pawnmask c) (pawnmask c.xside) := by
  have h : ∀ c t, mem (pawnmask c.xside) (xsquare t) = mem (pawnmask c) t := by decide
  exact h c

theorem renames_rayBb (sq t : Square) :
    Renames mirror (rayBb sq t) (rayBb (xsquare sq) (xsquare t)) := fun u => by
  rw [Bool.eq_iff_iff, mem_rayBb, mem_rayBb]
  exact mirror_upside.between

end Masks

/-! ## Mirrored boards -/

/-- The castling right of the other side. -/
def CastleFlag.mirror : CastleFlag → CastleFlag
  | .wk => .bk
  | .wq => .bq
  | .bk => .wk
  | .bq => .wq

/-- The rotated occupancies are those of `occupied`. -/
def Board.OccupanciesAgree (b : Board) : Prop :=
  Rotations (mem b.occupied) b.occupied b.occupiedL90 b.occupiedL45 b.occupiedR45

instance (b : Board) : Decidable b.OccupanciesAgree :=
  decidable_of_iff ((∀ s, mem b.occupied s = mem b.occupied s) ∧
      (∀ s, mem b.occupiedL90 (mapL90 s) = mem b.occupied s) ∧
      (∀ s, mem b.occupiedL45 (mapL45 s) = mem b.occupied s) ∧
      ∀ s, mem b.occupiedR45 (mapR45 s) = mem b.occupied s)
    ⟨fun ⟨h1, h2, h3, h4⟩ => ⟨h1, h2, h3, h4⟩, fun ⟨h1, h2, h3, h4⟩ => ⟨h1, h2, h3, h4⟩⟩

/-- `b'` is `b` from the other side: ranks in reverse order, colours swapped. -/
@[mk_iff]
structure Mirrored (b b' : Board) : Prop where
  side : b'.side = b.side.xside
  pos : ∀ c p, Renames mirror (b.pos c p) (b'.pos c.xside p)
  pieces : ∀ c, Renames mirror (b.getPieces c) (b'.getPieces c.xside)
  occupied : Renames mirror b.occupied b'.occupied
  occupancies : b'.OccupanciesAgree
  king : ∀ c, b'.getKing c.xside = (b.getKing c).map xsquare
  flags : ∀ f, b'.hasFlag f.mirror = b.hasFlag f
  epsq : b'.epsq = b.epsq.map xsquare
  material : ∀ c, b'.material.get c.xside = b.material.get c
  hasCastled : ∀ c, b'.hasCastled.get c.xside = b.hasCastled.get c
  pceMovecnt : ∀ sq, b'.pceMovecnt.get (xsquare sq) = b.pceMovecnt.get sq

instance (x y : Bitboard) : Decidable (Renames mirror x y) :=
  inferInstanceAs (Decidable (∀ sq, mem y (mirror sq) = mem x sq))

instance : Fintype CastleFlag := ⟨{.wk, .wq, .bk, .bq}, fun f => by cases f <;> simp⟩

instance (b b' : Board) : Decidable (Mirrored b b') := decidable_of_iff _ (mirrored_iff b b').symm

section Attacks

variable {b b' : Board}

theorem worth_renames {x y : Bitboard} (h : Renames mirror x y) (w : Int) :
    Board.worth y w = Board.worth x w := by
  unfold Board.worth Bitboard.popcnt
  rw [h.count]

theorem any_renames {x y : Bitboard} (h : Renames mirror x y) : Bitboard.any y = Bitboard.any x :=
  h.ne_zero

namespace Mirrored

variable (h : Mirrored b b')

include h

theorem pawnCaptures (c : Color) (sq : Square) :
    Renames mirror (b.pawnCaptures sq c) (b'.pawnCaptures (xsquare sq) c.xside) := by
  have hcapt := renames_pawnCaptBb c sq
  unfold Board.pawnCaptures
  rw [h.epsq]
  cases b.epsq with
  | none => exact hcapt.and h.occupied
  | some ep =>
    simp only [Option.map_some]
    rw [← mirror_apply ep, Bitboard.testbit, Bitboard.testbit, hcapt ep]
    split
    · exact (hcapt.and h.occupied).insert ep
    · exact hcapt.and h.occupied

variable (hocc : b.OccupanciesAgree)

include hocc

theorem bishopAttacks (sq : Square) :
    Renames mirror (b.bishopAttacks sq) (b'.bishopAttacks (xsquare sq)) := fun t => by
  rw [Bool.eq_iff_iff]
  unfold Board.bishopAttacks
  rw [mem_bishopLookup hocc, mem_bishopLookup h.occupancies]
  exact mirror_upside.slides h.occupied upsideDir_mem_bishopDirs

theorem rookAttacks (sq : Square) :
    Renames mirror (b.rookAttacks sq) (b'.rookAttacks (xsquare sq)) := fun t => by
  rw [Bool.eq_iff_iff]
  unfold Board.rookAttacks
  rw [mem_rookLookup hocc, mem_rookLookup h.occupancies]
  exact mirror_upside.slides h.occupied upsideDir_mem_rookDirs

theorem queenAttacks (sq : Square) :
    Renames mirror (b.queenAttacks sq) (b'.queenAttacks (xsquare sq)) :=
  (h.bishopAttacks hocc sq).or (h.rookAttacks hocc sq)

theorem attackers (c : Color) (sq : Square) :
    Renames mirror (b.attackers sq c) (b'.attackers (xsquare sq) c.xside) := by
  unfold Board.attackers
  exact ((((((h.pawnCaptures c.xside sq).and (h.pos c .pawn)).or
    ((renames_knightAttacks sq).and (h.pos c .knight))).or
    ((h.bishopAttacks hocc sq).and (h.pos c .bishop))).or
    ((h.rookAttacks hocc sq).and (h.pos c .rook))).or
    ((h.queenAttacks hocc sq).and (h.pos c .queen))).or
    ((renames_kingAttacks sq).and (h.pos c .king))

end Mirrored

end Attacks

/-! ## The plugins -/

section Bonuses

namespace Mirrored

variable {b b' : Board} (h : Mirrored b b')

theorem rookAndPawn (c : Color) (sq pp : Square) :
    Board.rookAndPawn c.xside (xsquare sq) (xsquare pp) = Board.rookAndPawn c sq pp := by
  have h1 := rnk_lt sq
  have h2 := rnk_lt pp
  unfold Board.rookAndPawn
  rw [rnk_xsquare, rnk_xsquare]
  cases c <;> simp only [Color.xside] <;> congr 1 <;> refine if_congr ?_ rfl rfl <;> omega

include h

theorem getPhase : getPhase b' = getPhase b := by
  have hw : b'.material.get .black = b.material.get .white := h.material .white
  have hb : b'.material.get .white = b.material.get .black := h.material .black
  unfold Chess.getPhase
  rw [hw, hb, add_comm]

theorem openFile (c : Color) (f : Fin 8) : b'.openFile c.xside f = b.openFile c f := by
  unfold Board.openFile
  rw [any_renames ((renames_fileBb f).and (h.pos c .pawn)),
    any_renames ((renames_fileBb f).and (h.pos c.xside .pawn))]

theorem seventhRank {c : Color} (hking : b.getKing c.xside ≠ none) :
    b'.seventhRank c.xside = b.seventhRank c := by
  obtain ⟨k, hk⟩ := Option.ne_none_iff_exists'.mp hking
  have hrank : Renames mirror (rankBb ⟨sideRank c rank7, by cases c <;> decide⟩)
      (rankBb ⟨sideRank c.xside rank7, by cases c <;> decide⟩) :=
    renames_rankBb (by cases c <;> rfl)
  have h8 : rnk (xsquare k) = sideRank c.xside rank8 ↔ rnk k = sideRank c rank8 :=
    rnk_eq_sideRank_xside c (by decide) k
  unfold Board.seventhRank
  rw [any_renames ((h.pos c.xside .pawn).and hrank), h.king c.xside, hk]
  simp only [Option.map_some, Option.getD_some, h8]

theorem canCastle (c : Color) : b'.canCastle c.xside = b.canCastle c := by
  cases c
  · exact congrArg₂ or (h.flags .wk) (h.flags .wq)
  · exact congrArg₂ or (h.flags .bk) (h.flags .bq)

theorem scoreKing (phase : Phase) (c : Color) : b'.scoreKing phase c.xside = b.scoreKing phase c := by
  unfold Board.scoreKing
  rw [h.king c]
  cases b.getKing c with
  | none => rfl
  | some k =>
    simp only [Option.map_some]
    rw [kingScores_xsquare, kingScoresEndgame_xsquare,
      any_renames ((h.pos c .king).and (renames_kingmask c)),
      worth_renames (((renames_kingAttacks k).and (renames_pawnmask c)).and (h.pos c .pawn))]

theorem doublePawns (c : Color) :
    Board.doublePawns (b'.pos c.xside .pawn) = Board.doublePawns (b.pos c .pawn) := by
  unfold Board.doublePawns
  refine congrArg List.sum (List.map_congr_left fun f _ => ?_)
  have hcount : Bitboard.popcnt (b'.pos c.xside .pawn &&& fileBb f) =
      Bitboard.popcnt (b.pos c .pawn &&& fileBb f) := ((h.pos c .pawn).and (renames_fileBb f)).count
  rw [hcount]

theorem isPassed (c : Color) (sq : Square) : b'.isPassed c.xside (xsquare sq) = b.isPassed c sq := by
  unfold Board.isPassed
  rw [any_renames ((renames_passedPawnMask c sq).and (h.pos c.xside .pawn))]

theorem pawnWorth (phase : Phase) (c : Color) (sq : Square) :
    b'.pawnWorth phase c.xside (xsquare sq) = b.pawnWorth phase c sq := by
  unfold Board.pawnWorth
  rw [sideSquare_xside, any_renames ((renames_isolatedPawnMask sq).and (h.pos c .pawn)),
    h.isPassed, dist_xside]

end Mirrored

end Bonuses

section Plugins

variable [Build] {b b' : Board}

theorem scoreOver_renames {x y : Bitboard} (h : Renames mirror x y) {f g : Square → Int}
    (hfg : ∀ sq, mem x sq = true → g (xsquare sq) = f sq) : Board.scoreOver y g = Board.scoreOver x f :=
  h.sum_drain _ _ hfg

namespace Mirrored

variable (h : Mirrored b b')

include h

theorem scoreKnights (c : Color) : b'.scoreKnights c.xside = b.scoreKnights c := by
  refine scoreOver_renames (h.pos c .knight) fun sq _ => ?_
  rw [knightScores_xsquare, worth_renames ((renames_knightAttacks sq).and (h.pieces c).not)]

theorem scoreDevel (phase : Phase) (c : Color) :
    b'.scoreDevel phase c.xside = b.scoreDevel phase c := by
  have hover : ∀ {x y : Bitboard} (v w : Int), Renames mirror x y →
      Board.scoreOver y (fun sq => if b'.pceMovecnt.get sq = 0#32 then v else w) =
        Board.scoreOver x (fun sq => if b.pceMovecnt.get sq = 0#32 then v else w) := by
    intro x y v w hxy
    refine scoreOver_renames hxy fun sq _ => ?_
    rw [h.pceMovecnt]
  unfold Board.scoreDevel
  rw [hover _ _ ((h.pos c .knight).or (h.pos c .bishop)), hover _ _ (h.pos c .rook),
    hover _ _ (h.pos c .queen), h.hasCastled, h.canCastle]

/-- What the pawns of a side are worth without the bonus for connected passed pawns. -/
theorem scorePawnsLoop (phase : Phase) (c : Color) :
    (b'.scorePawnsLoop phase c.xside).1 - 20 * (b'.connections c.xside : Int) =
      (b.scorePawnsLoop phase c).1 - 20 * (b.connections c : Int) := by
  have hworth : Board.scoreOver (b'.pos c.xside .pawn) (b'.pawnWorth phase c.xside) =
      Board.scoreOver (b.pos c .pawn) (b.pawnWorth phase c) :=
    scoreOver_renames (h.pos c .pawn) fun sq _ => h.pawnWorth phase c sq
  rw [Board.scorePawnsLoop_fst, Board.scorePawnsLoop_fst, h.doublePawns, hworth]
  ring

theorem passed (phase : Phase) (c : Color) :
    Renames mirror (b.scorePawnsLoop phase c).2 (b'.scorePawnsLoop phase c.xside).2 := fun sq => by
  rw [mirror_apply, Board.mem_scorePawnsLoop, Board.mem_scorePawnsLoop, h.isPassed, ← mirror_apply,
    h.pos c .pawn]

variable (hocc : b.OccupanciesAgree)

include hocc

theorem scoreBishops (c : Color) : b'.scoreBishops c.xside = b.scoreBishops c := by
  refine scoreOver_renames (h.pos c .bishop) fun sq _ => ?_
  have h2 : rnk (xsquare sq) = sideRank c.xside rank2 ↔ rnk sq = sideRank c rank2 :=
    rnk_eq_sideRank_xside c (by decide) sq
  rw [worth_renames ((h.bishopAttacks hocc sq).and (h.pieces c).not),
    worth_renames ((h.pawnCaptures c.xside sq).and (h.pos c .pawn)), fil_xsquare]
  simp only [h2]

theorem scoreRooks {c : Color} (hking : b.getKing c.xside ≠ none) (phase : Phase)
    {passed passed' : Bitboard} (hpassed : Renames mirror passed passed') :
    b'.scoreRooks phase passed' c.xside = b.scoreRooks phase passed c := by
  refine scoreOver_renames (h.pos c .rook) fun sq _ => ?_
  have h1 : rnk (xsquare sq) = sideRank c.xside rank1 ↔ rnk sq = sideRank c rank1 :=
    rnk_eq_sideRank_xside c (by decide) sq
  have h7 : rnk (xsquare sq) = sideRank c.xside rank7 ↔ rnk sq = sideRank c rank7 :=
    rnk_eq_sideRank_xside c (by decide) sq
  have hpp : Board.scoreOver (passed' &&& fileBb (fileOf sq)) (Board.rookAndPawn c.xside (xsquare sq)) =
      Board.scoreOver (passed &&& fileBb (fileOf sq)) (Board.rookAndPawn c sq) :=
    scoreOver_renames (hpassed.and (renames_fileBb _)) fun pp _ => rookAndPawn c sq pp
  rw [worth_renames ((h.rookAttacks hocc sq).and (h.pieces c).not), h.seventhRank hking,
    fileOf_xsquare, h.openFile, hpp]
  simp only [ne_eq, h1, h7]

theorem scoreQueens (c : Color) : b'.scoreQueens c.xside = b.scoreQueens c := by
  refine scoreOver_renames (h.pos c .queen) fun sq _ => ?_
  exact worth_renames ((h.queenAttacks hocc sq).and (h.pieces c).not) 1

theorem scoreCombo (c : Color) : b'.scoreCombo c.xside = b.scoreCombo c := by
  refine scoreOver_renames (h.pos c .queen) fun q _ => ?_
  have hbattery : ∀ {x y : Bitboard} (v : Int), Renames mirror x y →
      Board.scoreOver y
          (fun t => if Bitboard.any (b'.occupied &&& rayBb (xsquare q) t) then 0 else v) =
        Board.scoreOver x (fun t => if Bitboard.any (b.occupied &&& rayBb q t) then 0 else v) := by
    intro x y v hxy
    refine scoreOver_renames hxy fun t _ => ?_
    rw [any_renames (h.occupied.and (renames_rayBb q t))]
  rw [hbattery _ ((h.bishopAttacks hocc q).and (h.pos c .bishop)),
    hbattery _ ((h.rookAttacks hocc q).and (h.pos c .rook))]

omit [Build] in
theorem scoreControl (c : Color) : b'.scoreControl c.xside = b.scoreControl c := by
  refine sum_finRange mirror fun sq => ?_
  have hcount : Bitboard.popcnt (b'.attackers (xsquare sq) c.xside) = Bitboard.popcnt (b.attackers sq c) :=
    (h.attackers hocc c sq).count
  rw [mirror_apply, controlScore_xsquare, controlMaxattackers_xsquare, hcount]

/-- **All plugins of phase 1 but the pawns.** -/
theorem scorePlugins {c : Color} (hking : b.getKing c.xside ≠ none) (phase : Phase)
    {passed passed' : Bitboard} (hpassed : Renames mirror passed passed') :
    b'.scorePlugins phase passed' c.xside = b.scorePlugins phase passed c := by
  unfold Board.scorePlugins
  rw [h.scoreKnights, h.scoreBishops hocc, h.scoreRooks hocc hking phase hpassed, h.scoreQueens hocc,
    h.scoreKing, h.scoreDevel, h.scoreCombo hocc]

end Mirrored

end Plugins

end HoiChess.Chess
