import HoiChess.Chess.Accepted
import HoiChess.Common.EvalCache
import HoiChess.Common.Node

/-!
# When the evaluation does not prefer a colour

On a board and its mirror image the two sides get the same from every plugin, except for the bonus
for connected passed pawns, which depends on the order in which the loop meets the pawns.  So both
boards are scored alike exactly if that bonus gives the side to move the same lead, or the control
over the board makes up for the difference (`ConnectionsAgree`).  The same board with the other side
to move is simpler: no plugin looks at the side, so the score changes its sign
(`eval_other_side`).
-/

namespace HoiChess

open Chess WordSet

namespace Evaluator

section Mirror

variable [Build] (b b' : Board)

/-- By how much the bonus for connected passed pawns favours the side to move. -/
def lead : Int := 20 * ((b.connections b.side : Int) - b.connections b.side.xside)

/-- The score of phase 1 for the side to move without that bonus. -/
def scoreApart : Int := score1 b b.side - score1 b b.side.xside - lead b

/-- The lead counts the same in the end: it is the same, or the control over the board, which is only
looked at when phase 1 says little, makes up for the difference. -/
def ConnectionsAgree : Prop :=
  let s := scoreApart b + lead b
  let s' := scoreApart b + lead b'
  lead b = lead b' ∨
    (|s| ≤ evalCutoffPhase1 ∧ evalCutoffPhase1 < |s'| ∧ lead b + phase2 b = lead b') ∨
    (|s'| ≤ evalCutoffPhase1 ∧ evalCutoffPhase1 < |s| ∧ lead b' + phase2 b = lead b)

variable {b b'}

theorem fullScore_eq : fullScore b = total (material b) (scoreApart b + lead b) (phase2 b) := by
  unfold fullScore scoreApart
  rw [sub_add_cancel]

section Images

variable (h : Mirrored b b')

include h

omit [Build] in
theorem material_mirrored : material b' = material b := by
  have hside := h.material b.side.xside
  rw [xside_xside] at hside
  unfold material
  rw [h.side, h.material, xside_xside, hside]

variable (hocc : b.OccupanciesAgree)

include hocc

omit [Build] in
theorem phase2_mirrored : phase2 b' = phase2 b := by
  unfold phase2
  rw [h.side, h.scoreControl hocc, h.scoreControl hocc]

/-- What a side gets in phase 1, apart from the bonus. -/
theorem score1_mirrored {c : Color} (hking : b.getKing c.xside ≠ none) :
    score1 b' c.xside - 20 * (b'.connections c.xside : Int) =
      score1 b c - 20 * (b.connections c : Int) := by
  have hpawns := h.scorePawnsLoop (Chess.getPhase b) c
  unfold score1
  rw [pawnScore_get, pawnScore_get, passed_get, passed_get, h.getPhase,
    h.scorePlugins hocc hking (Chess.getPhase b) (h.passed (Chess.getPhase b) c)]
  linarith

theorem scoreApart_mirrored (hking : ∀ c, b.getKing c ≠ none) : scoreApart b' = scoreApart b := by
  have h1 := score1_mirrored h hocc (hking b.side.xside)
  have h2 := score1_mirrored h hocc (hking b.side.xside.xside)
  unfold scoreApart lead
  rw [h.side]
  linarith

end Images

/-! ## Evaluators without tables -/

variable {e e' : Evaluator}

theorem sound_of_no_table (h : e.pawnhashtable = none) (B : Board → Prop) : Sound e B := by
  intro t ht
  rw [h] at ht
  cases ht

omit [Build] in
/-- The material of a board that is read is never outside the full window. -/
theorem cutoff_full (hmat : ∀ c, 0 ≤ b.material.get c ∧ b.material.get c ≤ 72000) :
    cutoff b (-infty) infty = false := by
  have hbal := Board.abs_materialBalance_le (hmat b.side) (hmat b.side.xside)
  rw [abs_le] at hbal
  unfold cutoff material
  rw [Bool.or_eq_false_iff, decide_eq_false_iff_not, decide_eq_false_iff_not]
  have h1 : infty = 100000 := rfl
  have h2 : evalCutoffMaterial = 150 := rfl
  omega

theorem eval_full (he : e.pawnhashtable = none) (hcache : e.evalcache = none)
    (hmat : ∀ c, 0 ≤ b.material.get c ∧ b.material.get c ≤ 72000) :
    (e.eval b (-infty) infty).1 = fullScore b := by
  have heval := ((sound_of_no_table he fun _ => True).eval (b := b) trivial hcache (-infty) infty).1
  rw [heval, cutoff_full hmat]
  rfl

/-- **The evaluation does not prefer a colour** exactly if the bonus for connected passed pawns,
which depends on the order of the loop, counts the same on both boards. -/
theorem eval_mirrored_iff {text : String} (hb : Board.parseFen text = .accepted b)
    (h : Mirrored b b') (he : e.pawnhashtable = none) (hcache : e.evalcache = none)
    (he' : e'.pawnhashtable = none) (hcache' : e'.evalcache = none) :
    (e.eval b (-infty) infty).1 = (e'.eval b' (-infty) infty).1 ↔ ConnectionsAgree b b' := by
  obtain ⟨hput, hking⟩ := putUp_of_accepted hb
  have hmat : ∀ c, 0 ≤ b.material.get c ∧ b.material.get c ≤ 72000 := hput.material
  have hmat' : ∀ c, 0 ≤ b'.material.get c ∧ b'.material.get c ≤ 72000 := by
    intro c
    have hc := h.material c.xside
    rw [xside_xside] at hc
    rw [hc]
    exact hmat c.xside
  rw [eval_full he hcache hmat, eval_full he' hcache' hmat', fullScore_eq, fullScore_eq,
    material_mirrored h, phase2_mirrored h hput.occupancies,
    scoreApart_mirrored h hput.occupancies hking]
  exact total_eq_iff _ _ _ _ _

end Mirror

/-- Nobody is ahead in the opening position. -/
example : (@Board.parseFen sampleBuild openingFen).holds (fun b =>
    decide (@fullScore sampleBuild b = 0)) = true := by
  decide +kernel

/-- Nobody has a passed pawn in the opening position. -/
theorem eval_opening_mirrored : ∃ b b', @Board.parseFen sampleBuild openingFen = .accepted b ∧
    @Board.parseFen sampleBuild "rnbqkbnr/pppppppp/8/8/8/8/PPPPPPPP/RNBQKBNR b KQkq - 0 1" =
      .accepted b' ∧ (@eval sampleBuild create b (-infty) infty).1 =
        (@eval sampleBuild create b' (-infty) infty).1 := by
  let _ := sampleBuild
  have hrun : (Board.parseFen openingFen).holds (fun b => (Board.parseFen
      "rnbqkbnr/pppppppp/8/8/8/8/PPPPPPPP/RNBQKBNR b KQkq - 0 1").holds (fun b' =>
        decide (Mirrored b b' ∧ lead b = lead b'))) = true := by
    decide +kernel
  obtain ⟨b, hb, hrun⟩ := FenResult.holds_eq_true.mp hrun
  obtain ⟨b', hb', hrun⟩ := FenResult.holds_eq_true.mp hrun
  obtain ⟨hm, hlead⟩ := of_decide_eq_true hrun
  exact ⟨b, b', hb, hb', (eval_mirrored_iff hb hm rfl rfl rfl rfl).mpr (.inl hlead)⟩

/-- **Three pawns in a chain**: the loop, which goes from the eighth rank to the first, meets White's
front pawn first and then gives two bonuses, but Black's rear pawns first and gives one. -/
theorem eval_prefers_white : ∃ b b',
    @Board.parseFen sampleBuild "4k3/8/1P6/P1P5/8/8/8/4K3 w - - 0 1" = .accepted b ∧
    @Board.parseFen sampleBuild "4k3/8/8/8/p1p5/1p6/8/4K3 b - - 0 1" = .accepted b' ∧
    Mirrored b b' ∧ (@eval sampleBuild create b (-infty) infty).1 = 571 ∧
      (@eval sampleBuild create b' (-infty) infty).1 = 551 := by
  let _ := sampleBuild
  have hrun : (Board.parseFen "4k3/8/1P6/P1P5/8/8/8/4K3 w - - 0 1").holds (fun b =>
      (Board.parseFen "4k3/8/8/8/p1p5/1p6/8/4K3 b - - 0 1").holds (fun b' =>
        decide (Mirrored b b') && decide ((create.eval b (-infty) infty).1 = 571) &&
          decide ((create.eval b' (-infty) infty).1 = 551))) = true := by
    decide +kernel
  obtain ⟨b, hb, hrun⟩ := FenResult.holds_eq_true.mp hrun
  obtain ⟨b', hb', hrun⟩ := FenResult.holds_eq_true.mp hrun
  rw [Bool.and_eq_true, Bool.and_eq_true, decide_eq_true_eq, decide_eq_true_eq,
    decide_eq_true_eq] at hrun
  exact ⟨b, b', hb, hb', hrun.1.1, hrun.1.2, hrun.2⟩

/-! ## The other side to move -/

section OtherSide

variable [Build] {b : Board} {e e' : Evaluator}

/-- **The evaluation changes its sign with the side to move**, whatever the key of the board with
the other side is, and whether or not a pawn could be taken en passant. -/
theorem eval_other_side {man : Placement} (h : Consistent b man) (key : Hashkey)
    (he : e.pawnhashtable = none) (hcache : e.evalcache = none)
    (he' : e'.pawnhashtable = none) (hcache' : e'.evalcache = none) :
    (e'.eval { b with side := b.side.xside, hashkey := key } (-infty) infty).1 =
      -(e.eval b (-infty) infty).1 := by
  set b' : Board := { b with side := b.side.xside, hashkey := key }
  have hmat : ∀ c, 0 ≤ b.material.get c ∧ b.material.get c ≤ 72000 := material_bounds h
  have hmat' : ∀ c, 0 ≤ b'.material.get c ∧ b'.material.get c ≤ 72000 := hmat
  have hwhite : toWhite b' (fullScore b') = toWhite b (fullScore b) := by
    rw [toWhite_fullScore, toWhite_fullScore]
    rfl
  have hsign : ∀ s, toWhite b' s = -toWhite b s := by
    intro s
    unfold toWhite
    cases hb : b.side with
    | white => simp [b', hb, Color.xside]
    | black => simp [b', hb, Color.xside]
  rw [eval_full he hcache hmat, eval_full he' hcache' hmat', ← toWhite_toWhite b' (fullScore b'),
    hwhite, hsign, toWhite_toWhite]

end OtherSide

/-- White has a queen and Black has none. -/
theorem eval_queen_other_side :
    let b := ((Board.clear.placePiece (k := sampleBuild) 4 .white .king).placePiece
      (k := sampleBuild) 60 .black .king).placePiece (k := sampleBuild) 27 .white .queen
    (@eval sampleBuild create { b with side := b.side.xside } (-infty) infty).1 =
      -(@eval sampleBuild create b (-infty) infty).1 := by
  let _ := sampleBuild
  let b₁ := Board.clear.placePiece 4 .white .king
  let b₂ := b₁.placePiece 60 .black .king
  have h₁ : Consistent b₁ _ := Consistent.clear.placePiece .white .king rfl
  have h₂ : Consistent b₂ _ := h₁.placePiece .black .king rfl
  have h₃ : Consistent (b₂.placePiece 27 .white .queen) _ := h₂.placePiece .white .queen rfl
  exact eval_other_side h₃ _ rfl rfl rfl rfl

end Evaluator

end HoiChess
