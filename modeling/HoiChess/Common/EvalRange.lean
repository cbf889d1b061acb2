import HoiChess.Chess.Addends
import HoiChess.Common.EvalCache
import HoiChess.Common.Node

/-!
# The range of the static scores

`steps` lists the values that `Evaluator::eval` computes on its way to a score: those of
`material_balance`, the scores of the plugins while they add up, and the sums of these.  On a
board with at most one man on a square, however many queens there are, none of them gets near
the end of 32 bits, and the score is never one of a mate (`eval_in_range`).

The material alone counts up to 20736, for one side that has 36864: beyond that the factor of
`material_balance` falls faster than the difference grows.  A table that was filled from such boards
has only such scores (`Small`), whatever the keys are.
-/

namespace HoiChess

open Chess WordSet Accumulate

/-! ## The material -/

/-- The values that `material_balance` computes. -/
def materialSteps (ms mxs : Int) : List Int :=
  [ms + mxs, 8192 - (ms + mxs), 8192 * 8, 8192 - (ms + mxs) + 8192 * 8, ms - mxs,
    (8192 - (ms + mxs) + 8192 * 8) * (ms - mxs), materialBalance ms mxs]

/-- The values of `signed int`. -/
def FitsInt (x : Int) : Prop := -2147483648 ≤ x ∧ x ≤ 2147483647

theorem fitsInt_of_abs {x : Int} (h : |x| ≤ 2147483647) : FitsInt x := by
  rw [abs_le] at h
  exact ⟨by omega, h.2⟩

section Material

variable {ms mxs : Int}

/-- **The product is largest in the middle**, where one side has 36864 and the other nothing. -/
theorem abs_materialProduct_le (h1 : 0 ≤ ms) (h2 : 0 ≤ mxs) (h : ms + mxs ≤ 57600) :
    |(8192 - (ms + mxs) + 8192 * 8) * (ms - mxs)| ≤ 36864 * 36864 := by
  have hdiff : |ms - mxs| ≤ ms + mxs := by
    rw [abs_le]
    omega
  have hfactor : 0 ≤ 8192 - (ms + mxs) + 8192 * 8 := by omega
  rw [abs_mul, abs_of_nonneg hfactor]
  have hsquare := sq_nonneg (ms + mxs - 36864)
  calc (8192 - (ms + mxs) + 8192 * 8) * |ms - mxs|
      ≤ (8192 - (ms + mxs) + 8192 * 8) * (ms + mxs) := mul_le_mul_of_nonneg_left hdiff hfactor
    _ ≤ 36864 * 36864 := by linarith

theorem abs_materialBalance_le_extreme (h1 : 0 ≤ ms) (h2 : 0 ≤ mxs) (h : ms + mxs ≤ 57600) :
    |materialBalance ms mxs| ≤ 20736 := by
  have hnum := abs_materialProduct_le h1 h2 h
  unfold materialBalance
  generalize (8192 - (ms + mxs) + 8192 * 8) * (ms - mxs) = a at hnum
  rw [Int.abs_eq_natAbs] at hnum ⊢
  rw [Int.natAbs_tdiv]
  show ((a.natAbs / 65536 : Nat) : Int) ≤ 20736
  omega

theorem materialSteps_fit (h1 : 0 ≤ ms) (h2 : 0 ≤ mxs) (h : ms + mxs ≤ 57600) :
    ∀ x ∈ materialSteps ms mxs, FitsInt x := by
  have hproduct := abs_le.mp (abs_materialProduct_le h1 h2 h)
  have hbalance := abs_le.mp (abs_materialBalance_le_extreme h1 h2 h)
  intro x hx
  simp only [materialSteps, List.mem_cons, List.not_mem_nil, or_false] at hx
  unfold FitsInt
  rcases hx with rfl | rfl | rfl | rfl | rfl | rfl | rfl <;> omega

/-- All men together are worth no more than a queen for each square. -/
theorem material_total_le [Build] {b : Board} {man : Placement} (h : Consistent b man) :
    b.material.get .white + b.material.get .black ≤ 57600 := by
  have hone : ∀ m : Option Man, manValue .white m + manValue .black m ≤ 900 := by
    intro m
    cases m with
    | none => decide
    | some m =>
      obtain ⟨c, p⟩ := m
      cases c <;> cases p <;> decide
  rw [h.material, h.material, ← Finset.sum_add_distrib]
  refine (Finset.sum_le_card_nsmul _ _ 900 fun sq _ => hone (man sq)).trans ?_
  rw [Finset.card_univ, Fintype.card_fin]
  decide

end Material

namespace Evaluator

/-! ## The values on the way to a score -/

section Steps

variable [Build] (e : Evaluator) (b : Board)

/-- What `score_pawns` returns: the score of the entry, or that of the loop. -/
def pawnResult (phase : Chess.Phase) (side : Color) : Int :=
  if e.pawnhashentry.phase = some phase then e.pawnhashentry.score.get side
  else (b.pawnAddends phase side).sum

def pawnSteps (phase : Chess.Phase) (side : Color) : List Int :=
  if e.pawnhashentry.phase = some phase then [e.pawnhashentry.score.get side]
  else sums 0 (b.pawnAddends phase side)

/-- The passed pawns that `score_rooks` looks at. -/
def passedResult (phase : Chess.Phase) (side : Color) : Bitboard :=
  if e.pawnhashentry.phase = some phase then e.pawnhashentry.passed.get side
  else (b.scorePawnsLoop phase side).2

/-- What the plugins of phase 1 return for a side, in the order in which they are called. -/
def results (phase : Chess.Phase) (side : Color) : List Int :=
  pawnResult e b phase side ::
    (b.plugins phase (passedResult e b phase side) side).map List.sum

/-- The scores of the plugins of phase 1 for a side while they add up. -/
def resultSteps (phase : Chess.Phase) (side : Color) : List Int :=
  pawnSteps e b phase side ++
    (b.plugins phase (passedResult e b phase side) side).flatMap (sums 0)

/-- What is added to `score1`. -/
def differences (phase : Chess.Phase) : List Int :=
  List.zipWith (fun s x => s - x) (results e b phase b.side) (results e b phase b.side.xside)

/-- The values of phase 2, which is left out if phase 1 says enough. -/
def phase2Steps (score1 : Int) : List Int :=
  if score1 > evalCutoffPhase1 ∨ score1 < -evalCutoffPhase1 then []
  else sums 0 (b.controlAddends b.side) ++ sums 0 (b.controlAddends b.side.xside) ++
    [phase2 b, 0 + phase2 b]

/-- The values from `setup` to `finish`. -/
def evaluateSteps : List Int :=
  let phase := Chess.getPhase b
  let e := e.setup b
  let score1 := (differences e b phase).sum
  resultSteps e b phase b.side ++ resultSteps e b phase b.side.xside ++ differences e b phase ++
    sums 0 (differences e b phase) ++ [material b + score1] ++ phase2Steps b score1 ++
    [total (material b) score1 (phase2 b)]

def steps (alpha beta : Int) : List Int :=
  materialSteps (b.material.get b.side) (b.material.get b.side.xside) ++
    if cutoff b alpha beta then []
    else
      match e.evalcache.bind (fun c => c.probe b) with
      | some score => [score]
      | none => evaluateSteps e b

end Steps

/-! ## They are those of the evaluator -/

section Evaluate

variable [Build] (e : Evaluator) (b : Board)

theorem scorePawns_fst (phase : Chess.Phase) (side : Color) :
    (e.scorePawns b phase side).1 = pawnResult e b phase side := by
  unfold scorePawns pawnResult
  rw [Board.sum_pawnAddends]
  split <;> rfl

theorem scorePawns_passed (phase : Chess.Phase) (side : Color) :
    ((e.scorePawns b phase side).2.passedPawns) =
      e.passedPawns.set side (passedResult e b phase side) := by
  unfold scorePawns passedResult
  split <;> rfl

/-- The loop for one side leaves what the entry says of the other one. -/
theorem scorePawns_other (phase : Chess.Phase) (side : Color) :
    pawnResult (e.scorePawns b phase side).2 b phase side.xside = pawnResult e b phase side.xside ∧
      passedResult (e.scorePawns b phase side).2 b phase side.xside =
        passedResult e b phase side.xside := by
  unfold scorePawns
  split
  · exact ⟨rfl, rfl⟩
  · rename_i hp
    have hp' : ¬ (({ e.pawnhashentry with
        score := e.pawnhashentry.score.set side (b.scorePawnsLoop phase side).1
        passed := e.pawnhashentry.passed.set side (b.scorePawnsLoop phase side).2 } :
          PawnHashEntry).phase = some phase) := hp
    constructor
    · show (if _ then _ else _) = _
      rw [if_neg hp', pawnResult, if_neg hp]
    · show (if _ then _ else _) = _
      rw [if_neg hp', passedResult, if_neg hp]

omit [Build] in
/-- Both entries of an array are set, for the side to move first. -/
theorem get_set_both {α : Type} (a : PerColor α) (f : Color → α) (c d : Color) :
    ((a.set c (f c)).set c.xside (f c.xside)).get d = f d := by
  cases c <;> cases d <;> rfl

/-- **`score1` is the sum of the differences.** -/
theorem phase1_fst (phase : Chess.Phase) : (e.phase1 b phase).1 = (differences e b phase).sum := by
  obtain ⟨hpawns, hpassed⟩ := scorePawns_other e b phase b.side
  unfold phase1 differences results
  simp only [scorePawns_fst, scorePawns_passed, hpawns, hpassed,
    get_set_both _ (passedResult e b phase), Board.sum_plugins, List.zipWith_cons_cons,
    List.zipWith_nil_left, List.sum_cons, List.sum_nil,
    Board.scorePlugins]
  ring

theorem evaluate_fst : (e.evaluate b).1 = total (material b)
    (differences (e.setup b) b (Chess.getPhase b)).sum (phase2 b) := by
  rw [← phase1_fst]
  rfl

end Evaluate

/-! ## What the tables hold -/

/-- The scores of an entry, if it is valid, are those of pawns. -/
def SmallEntry (entry : PawnHashEntry) : Prop :=
  ∀ phase, entry.phase = some phase → ∀ c, |entry.score.get c| ≤ 10728

/-- Neither table has a score that no board gets. -/
structure Small (e : Evaluator) : Prop where
  pawnhash : ∀ t, e.pawnhashtable = some t → ∀ slot, SmallEntry (t.table slot)
  evalcache : ∀ c, e.evalcache = some c → ∀ slot,
    (c.cache slot).score = CacheEntry.emptyScore ∨ |(c.cache slot).score| < mate

section Tables

variable [Build] {e : Evaluator} {b : Board}

omit [Build] in
theorem small_create : Small create := ⟨nofun, nofun⟩

omit [Build] in
theorem Small.setPawnhashSize (h : Small e) (bytes : Nat) : Small (e.setPawnhashSize bytes) := by
  refine ⟨fun t ht slot phase hp => ?_, h.evalcache⟩
  have ht' : (if bytes > 0 then some (PawnHashTable.create bytes) else none) = some t := ht
  split at ht'
  · obtain rfl := Option.some.inj ht'
    cases hp
  · cases ht'

omit [Build] in
theorem Small.setEvalcacheSize (h : Small e) (bytes : Nat) : Small (e.setEvalcacheSize bytes) := by
  refine ⟨h.pawnhash, fun c hc slot => ?_⟩
  have hc' : (if bytes > 0 then some (EvaluationCache.create bytes) else none) = some c := hc
  split at hc'
  · obtain rfl := Option.some.inj hc'
    exact .inl rfl
  · cases hc'

/-- What the cache answers is small. -/
theorem Small.probe (h : Small e) {s : Int} (hs : e.evalcache.bind (fun c => c.probe b) = some s) :
    |s| < mate := by
  obtain ⟨c, hc, hprobe⟩ := Option.bind_eq_some_iff.mp hs
  have hslot := h.evalcache c hc (b.hashkeyNoside.toNat % c.cacheSize)
  unfold EvaluationCache.probe at hprobe
  simp only at hprobe
  split at hprobe
  · cases hprobe
  · rename_i hempty
    have hscore := hslot.resolve_left hempty
    split at hprobe
    · cases hprobe
    · obtain rfl := Option.some.inj hprobe
      split
      · exact hscore
      · rw [abs_neg]
        exact hscore

theorem Small.put (h : Small e) {score : Int} (hscore : |score| < mate) :
    Small { e with evalcache := e.evalcache.map (fun c => c.put b score) } := by
  refine ⟨h.pawnhash, fun c' hc' slot => ?_⟩
  obtain ⟨c, hc, rfl⟩ := Option.map_eq_some_iff.mp hc'
  show (Function.update c.cache _ _ slot).score = _ ∨ |(Function.update c.cache _ _ slot).score| < _
  by_cases hs : slot = b.hashkeyNoside.toNat % c.cacheSize
  · subst hs
    rw [Function.update_self]
    refine .inr ?_
    show |if b.side = .white then score else -score| < mate
    split
    · exact hscore
    · rw [abs_neg]
      exact hscore
  · rw [Function.update_of_ne hs]
    exact h.evalcache c hc slot

omit [Build] in
/-- The entry that `setup` finds. -/
theorem Small.setup (h : Small e) (b : Board) :
    SmallEntry (e.setup b).pawnhashentry ∧ Small (e.setup b) := by
  unfold Evaluator.setup
  cases ht : e.pawnhashtable with
  | none => exact ⟨nofun, ⟨nofun, h.evalcache⟩⟩
  | some t =>
    refine ⟨fun phase hp c => ?_, ⟨fun t' ht' => h.pawnhash t' (ht.symm ▸ ht'), h.evalcache⟩⟩
    have hp' : (t.probe b.pawnhashkey e.pawnhashentry).phase = some phase := hp
    show |(t.probe b.pawnhashkey e.pawnhashentry).score.get c| ≤ 10728
    unfold PawnHashTable.probe at hp' ⊢
    simp only at hp' ⊢
    split at hp'
    · cases hp'
    · rename_i hhit
      rw [if_neg hhit]
      exact h.pawnhash t ht _ phase hp' c

/-! ## The scores -/

theorem abs_pawnResult_le (h : SmallEntry e.pawnhashentry) (b : Board) (phase : Chess.Phase)
    (side : Color) : |pawnResult e b phase side| ≤ 10728 := by
  unfold pawnResult
  split
  · rename_i hp
    exact h phase hp side
  · exact (abs_sum_le _).trans (b.weight_pawnAddends_le phase side)

theorem scorePawns_snd (phase : Chess.Phase) (side : Color) :
    (e.scorePawns b phase side).2.pawnhashtable = e.pawnhashtable ∧
      (e.scorePawns b phase side).2.evalcache = e.evalcache ∧
      (e.scorePawns b phase side).2.pawnhashentry.score =
        e.pawnhashentry.score.set side (pawnResult e b phase side) := by
  unfold scorePawns pawnResult
  split
  · exact ⟨rfl, rfl, (PerColor.set_get _ _).symm⟩
  · rw [Board.sum_pawnAddends]
    exact ⟨rfl, rfl, rfl⟩

/-- What `finish` puts into the table is small. -/
theorem Small.evaluate (h : Small e) : Small (e.evaluate b).2 := by
  obtain ⟨hentry, hsmall⟩ := h.setup b
  have h1 : ∀ c, |pawnResult (e.setup b) b (Chess.getPhase b) c| ≤ 10728 := fun c =>
    abs_pawnResult_le hentry b _ c
  obtain ⟨hother, _⟩ := scorePawns_other (e.setup b) b (Chess.getPhase b) b.side
  obtain ⟨ht1, hc1, hs1⟩ := scorePawns_snd (e := e.setup b) (b := b) (Chess.getPhase b) b.side
  obtain ⟨ht2, hc2, hs2⟩ := scorePawns_snd (b := b) (Chess.getPhase b) b.side.xside
    (e := ((e.setup b).scorePawns b (Chess.getPhase b) b.side).2)
  rw [hs1, hother] at hs2
  have hscore : ∀ c, |((e.setup b).phase1 b (Chess.getPhase b)).2.pawnhashentry.score.get c| ≤ 10728 := by
    intro c
    show |(((((e.setup b).scorePawns b _ b.side).2).scorePawns b _ b.side.xside).2).pawnhashentry.score.get
      c| ≤ _
    rw [hs2, get_set_both _ (pawnResult (e.setup b) b (Chess.getPhase b))]
    exact h1 c
  show Small (((e.setup b).phase1 b (Chess.getPhase b)).2.finish b (Chess.getPhase b))
  have htable : ((e.setup b).phase1 b (Chess.getPhase b)).2.pawnhashtable =
    (e.setup b).pawnhashtable := ht2.trans ht1
  have hcache : ((e.setup b).phase1 b (Chess.getPhase b)).2.evalcache =
    (e.setup b).evalcache := hc2.trans hc1
  generalize ((e.setup b).phase1 b (Chess.getPhase b)).2 = e' at hscore htable hcache
  unfold finish
  cases ht : e'.pawnhashtable with
  | none => exact ⟨fun t ht' => absurd (ht.symm.trans ht') nofun, hcache ▸ hsmall.evalcache⟩
  | some t =>
    refine ⟨fun t' ht' slot phase hp c => ?_, hcache ▸ hsmall.evalcache⟩
    obtain rfl := Option.some.inj ht'
    by_cases hs : slot = b.pawnhashkey.toNat % t.tableSize
    · subst hs
      show |(Function.update t.table _ _ _).score.get c| ≤ _
      rw [Function.update_self]
      exact hscore c
    · have hne : (t.put { e'.pawnhashentry with
          hashkey := b.pawnhashkey, phase := some (Chess.getPhase b) }).table slot = t.table slot :=
        Function.update_of_ne hs _ _
      rw [hne] at hp ⊢
      exact hsmall.pawnhash t (htable.symm.trans ht) slot phase hp c

end Tables

/-! ## Boards -/

/-- At most one man on a square, one king for each side, and no pawn on the first or last rank; the
other fields of the board are those of these men. -/
structure Ordinary [Build] (b : Board) (man : Placement) : Prop where
  consistent : Consistent b man
  king : ∀ c, ∃ sq, b.getKing c = some sq
  king_unique : ∀ c sq sq', man sq = some (c, .king) → man sq' = some (c, .king) → sq = sq'
  pawns : ∀ c sq, man sq = some (c, .pawn) → rnk sq ≠ rank1 ∧ rnk sq ≠ rank8

/-- The evaluators that have seen such boards only. -/
inductive Used [Build] : Evaluator → Prop
  | create : Used create
  | pawnhash {e : Evaluator} (h : Used e) (bytes : Nat) : Used (e.setPawnhashSize bytes)
  | evalcache {e : Evaluator} (h : Used e) (bytes : Nat) : Used (e.setEvalcacheSize bytes)
  | eval {e : Evaluator} (h : Used e) {b : Board} {man : Placement} (hb : Ordinary b man)
      (alpha beta : Int) : Used (e.eval b alpha beta).2

section Range

variable [Build] {e : Evaluator} {b : Board} {man : Placement}

theorem weight_results_le (h : SmallEntry e.pawnhashentry) (hb : Consistent b man) (phase : Chess.Phase)
    (side : Color) : weight (results e b phase side) ≤ 10728 + (b.pieceCount side * 667 + 176) := by
  have h1 := abs_pawnResult_le h b phase side
  have h2 := Board.weight_plugins_le hb phase (passedResult e b phase side) side
  have h3 := weight_map_sum_le (b.plugins phase (passedResult e b phase side) side)
  unfold results
  rw [weight_cons]
  linarith

/-- All that the plugins of phase 1 give to both sides. -/
theorem weight_differences_le (h : SmallEntry e.pawnhashentry) (hb : Consistent b man)
    (phase : Chess.Phase) : weight (differences e b phase) ≤ 64496 := by
  have h1 := weight_results_le h hb phase
  have hcount : (b.pieceCount .white : Int) + b.pieceCount .black ≤ 64 := by
    exact_mod_cast Board.pieceCount_le hb
  have hw := h1 .white
  have hx := h1 .black
  have hsub := weight_zipWith_sub_le (results e b phase b.side) (results e b phase b.side.xside)
  unfold differences
  cases hs : b.side <;> rw [hs] at hsub <;> simp only [Color.xside] at hsub ⊢ <;> linarith

theorem material_sides (hb : Consistent b man) : 0 ≤ b.material.get b.side ∧
    0 ≤ b.material.get b.side.xside ∧ b.material.get b.side + b.material.get b.side.xside ≤ 57600 := by
  have htotal := material_total_le hb
  refine ⟨(material_bounds hb _).1, (material_bounds hb _).1, ?_⟩
  cases b.side
  · exact htotal
  · rw [add_comm]
    exact htotal

theorem abs_material_le (hb : Consistent b man) : |material b| ≤ 20736 := by
  obtain ⟨h1, h2, h3⟩ := material_sides hb
  exact abs_materialBalance_le_extreme h1 h2 h3

omit [Build] in
theorem abs_control_le (b : Board) (c : Color) : |b.scoreControl c| ≤ 2048 :=
  (abs_sum_le _).trans (b.weight_controlAddends_le c)

/-- **No evaluation looks like a mate.** -/
theorem abs_evaluate_lt (h : Small e) (hb : Consistent b man) : |(e.evaluate b).1| < mate := by
  have hmate : mate = 90000 := rfl
  have h1 := abs_material_le hb
  have h2 := abs_sum_le (differences (e.setup b) b (Chess.getPhase b))
  have h3 := weight_differences_le (h.setup b).1 hb (Chess.getPhase b)
  have h4 := abs_control_le b b.side
  have h5 := abs_control_le b b.side.xside
  rw [evaluate_fst, hmate]
  unfold total phase2
  rw [abs_le] at h1 h4 h5
  rw [abs_lt]
  have h2' := abs_le.mp (h2.trans h3)
  split <;> omega

theorem abs_eval_lt (h : Small e) (hb : Consistent b man) (alpha beta : Int) :
    |(e.eval b alpha beta).1| < mate := by
  unfold Evaluator.eval
  split
  · exact (abs_material_le hb).trans_lt (by decide)
  · split
    · rename_i s hs
      exact h.probe hs
    · exact abs_evaluate_lt h hb

theorem Small.eval (h : Small e) (hb : Consistent b man) (alpha beta : Int) :
    Small (e.eval b alpha beta).2 := by
  unfold Evaluator.eval
  split
  · exact h
  · split
    · exact h
    · exact h.evaluate.put (abs_evaluate_lt h hb)

/-- The tables of a used evaluator. -/
theorem Used.small (h : Used e) : Small e := by
  induction h with
  | create => exact small_create
  | pawnhash _ bytes ih => exact ih.setPawnhashSize bytes
  | evalcache _ bytes ih => exact ih.setEvalcacheSize bytes
  | eval _ hb alpha beta ih => exact ih.eval hb.consistent alpha beta

/-! ## The values on the way -/

theorem resultSteps_le (h : SmallEntry e.pawnhashentry) (hb : Consistent b man) (phase : Chess.Phase)
    (side : Color) : ∀ x ∈ resultSteps e b phase side, |x| ≤ 64496 := by
  intro x hx
  rcases List.mem_append.mp hx with hx | hx
  · unfold pawnSteps at hx
    split at hx
    · rename_i hp
      obtain rfl := List.mem_singleton.mp hx
      exact (h phase hp side).trans (by decide)
    · have hsum := abs_sums_le _ 0 x hx
      have hpawns := b.weight_pawnAddends_le phase side
      rw [abs_zero] at hsum
      linarith
  · obtain ⟨l, hl, hx⟩ := List.mem_flatMap.mp hx
    have hsum := abs_sums_le l 0 x hx
    have hpart := weight_le_flatten hl
    have hall := Board.weight_plugins_le hb phase (passedResult e b phase side) side
    have hcount : (b.pieceCount side : Int) ≤ 64 := by
      have hboth := Board.pieceCount_le hb
      cases side <;> omega
    rw [abs_zero] at hsum
    linarith

omit [Build] in
theorem phase2Steps_le (b : Board) (score1 : Int) : ∀ x ∈ phase2Steps b score1, |x| ≤ 64496 := by
  have hside : ∀ c, ∀ x ∈ sums 0 (b.controlAddends c), |x| ≤ 2048 := by
    intro c x hx
    have hsum := abs_sums_le _ 0 x hx
    rw [abs_zero, zero_add] at hsum
    exact hsum.trans (b.weight_controlAddends_le c)
  have hdiff : |phase2 b| ≤ 64496 := by
    have h2 := abs_le.mp (abs_control_le b b.side)
    have h3 := abs_le.mp (abs_control_le b b.side.xside)
    rw [abs_le]
    unfold phase2
    omega
  intro x hx
  unfold phase2Steps at hx
  split at hx
  · cases hx
  · rcases List.mem_append.mp hx with hx | hx
    · rcases List.mem_append.mp hx with hx | hx
      · exact (hside b.side x hx).trans (by decide)
      · exact (hside b.side.xside x hx).trans (by decide)
    · have hx' : x = phase2 b := (List.mem_pair.mp hx).elim id fun h => h.trans (zero_add _)
      rw [hx']
      exact hdiff

theorem evaluateSteps_le (h : Small e) (hb : Consistent b man) :
    ∀ x ∈ evaluateSteps e b, |x| ≤ 90000 := by
  have hentry := (h.setup b).1
  have hweight := weight_differences_le hentry hb (Chess.getPhase b)
  intro x hx
  unfold evaluateSteps at hx
  simp only [List.mem_append, List.mem_singleton] at hx
  rcases hx with (((((hx | hx) | hx) | hx) | rfl) | hx) | rfl
  · exact (resultSteps_le hentry hb _ _ x hx).trans (by decide)
  · exact (resultSteps_le hentry hb _ _ x hx).trans (by decide)
  · exact ((abs_le_weight hx).trans hweight).trans (by decide)
  · have hsum := abs_sums_le _ 0 x hx
    rw [abs_zero] at hsum
    linarith
  · have hmat := abs_material_le hb
    have hsum := abs_sum_le (differences (e.setup b) b (Chess.getPhase b))
    have hadd := abs_add_le (material b) (differences (e.setup b) b (Chess.getPhase b)).sum
    linarith
  · exact (phase2Steps_le b _ x hx).trans (by decide)
  · rw [← evaluate_fst]
    exact (abs_evaluate_lt h hb).le

theorem steps_fit (h : Small e) (hb : Consistent b man) (alpha beta : Int) :
    ∀ x ∈ steps e b alpha beta, FitsInt x := by
  obtain ⟨h1, h2, h3⟩ := material_sides hb
  intro x hx
  rcases List.mem_append.mp hx with hx | hx
  · exact materialSteps_fit h1 h2 h3 x hx
  · split at hx
    · cases hx
    · split at hx
      · rename_i s hs
        obtain rfl := List.mem_singleton.mp hx
        exact fitsInt_of_abs ((h.probe hs).le.trans (by decide))
      · exact fitsInt_of_abs ((evaluateSteps_le h hb x hx).trans (by decide))

/-- The score is one of the values. -/
theorem eval_mem_steps (e : Evaluator) (b : Board) (alpha beta : Int) :
    (e.eval b alpha beta).1 ∈ steps e b alpha beta := by
  unfold Evaluator.eval steps
  by_cases hcut : cutoff b alpha beta = true
  · rw [if_pos hcut, if_pos hcut, List.append_nil]
    simp [materialSteps, material]
  · rw [if_neg hcut, if_neg hcut]
    refine List.mem_append_right _ ?_
    cases hprobe : e.evalcache.bind fun c => c.probe b with
    | some s => exact List.mem_singleton_self _
    | none => exact List.mem_append_right _ (List.mem_singleton.mpr (evaluate_fst e b))

/-- The distance that the bonus of a passed pawn is divided by. -/
theorem passed_dist_ne_zero (hb : Ordinary b man) (side : Color) :
    ∀ sq ∈ squares (b.pos side .pawn), |(sideRank side rank8 : Int) - rnk sq| ≠ 0 := by
  intro sq hsq
  have hman : man sq = some (side, .pawn) := by
    have hpos := hb.consistent.pos side .pawn sq
    rw [(mem_squares _ _).mp hsq] at hpos
    exact of_decide_eq_true hpos.symm
  obtain ⟨h1, h8⟩ := hb.pawns side sq hman
  rw [abs_ne_zero, sub_ne_zero]
  intro heq
  cases side with
  | white => exact h8 (by exact_mod_cast heq.symm)
  | black => exact h1 (by exact_mod_cast heq.symm)

/-- **Static scores never look like mates and never overflow**, and nothing is divided by 0. -/
theorem eval_in_range (h : Used e) (hb : Ordinary b man) (alpha beta : Int) :
    (-mate < (e.eval b alpha beta).1 ∧ (e.eval b alpha beta).1 < mate) ∧
      (∀ x ∈ steps e b alpha beta, FitsInt x) ∧
      ∀ side, ∀ sq ∈ squares (b.pos side .pawn), |(sideRank side rank8 : Int) - rnk sq| ≠ 0 :=
  ⟨abs_lt.mp (abs_eval_lt h.small hb.consistent alpha beta),
    steps_fit h.small hb.consistent alpha beta, passed_dist_ne_zero hb⟩

/-- The boards of games are ordinary. -/
theorem ordinary_of_sim {pos : Rules.Position} (h : Sim b pos) (hv : Rules.Valid pos) :
    Ordinary b pos.man := by
  refine ⟨h.consistent, fun c => ?_, hv.king_unique, hv.pawns⟩
  obtain ⟨sq, hsq⟩ := hv.king_exists c
  exact ⟨sq, h.king c sq hsq⟩

end Range

/-- The opening board, with tables that have seen it before. -/
theorem eval_in_range_opening : ∃ b e, @Board.parseFen sampleBuild openingFen = .accepted b ∧
    @Used sampleBuild e ∧ (-mate < (@eval sampleBuild e b (-100) 100).1 ∧
      (@eval sampleBuild e b (-100) 100).1 < mate) ∧
    (∀ x ∈ @steps sampleBuild e b (-100) 100, FitsInt x) ∧
    ∀ side, ∀ sq ∈ @squares sampleBuild (b.pos side .pawn),
      |(sideRank side rank8 : Int) - rnk sq| ≠ 0 := by
  let _ := sampleBuild
  obtain ⟨b, hb, hsim⟩ := parseFen_opening
  have hordinary := ordinary_of_sim hsim Rules.sane_opening.toValid
  have hused : Used ((fresh 4000 1600).eval b (-100) 100).2 :=
    ((Used.create.pawnhash 4000).evalcache 1600).eval hordinary (-100) 100
  exact ⟨b, _, hb, hused, eval_in_range hused hordinary (-100) 100⟩

end Evaluator

end HoiChess
