import HoiChess.Common.Exhaust

/-!
# Scores without mates

A score is mateless if it does not look like a mate, or is a bound of a fail-hard window.
This is kept by the negation from child to parent, by null windows and by the loops over
the moves (`Grounded.take`).  A node is starved if futility pruning skips all of its legal
moves (`starved_iff`).
-/

namespace HoiChess

open Chess Rules Exec

/-! ## Positions without a mate ahead -/

namespace Chess.Rules.Position

/-- Playing on with legal moves, and passing when not in check. -/
inductive Leads : Position → Position → Prop
  | refl (pos : Position) : Leads pos pos
  | move {pos pos' : Position} {ply : Ply} : pos.Legal ply → Leads (pos.apply ply) pos' → Leads pos pos'
  | pass {pos pos' : Position} : ¬ pos.InCheck → Leads pos.pass pos' → Leads pos pos'

/-- No position ahead is a checkmate. -/
def MateFree (pos : Position) : Prop := ∀ pos', pos.Leads pos' → pos'.InCheck → ∃ ply, pos'.Legal ply

variable {pos : Position}

theorem MateFree.apply (h : pos.MateFree) {ply : Ply} (hl : pos.Legal ply) : (pos.apply ply).MateFree :=
  fun pos' hlead => h pos' (.move hl hlead)

theorem MateFree.pass (h : pos.MateFree) (hc : ¬ pos.InCheck) : pos.pass.MateFree :=
  fun pos' hlead => h pos' (.pass hc hlead)

theorem MateFree.escape (h : pos.MateFree) (hc : pos.InCheck) : ∃ ply, pos.Legal ply :=
  h pos (.refl pos) hc

end Chess.Rules.Position

theorem Chess.manValue_mem (c : Color) (m : Option Man) : 0 ≤ manValue c m ∧ manValue c m ≤ 900 := by
  rcases m with _ | ⟨d, p⟩
  · exact ⟨le_rfl, Int.le_of_lt (by decide : (0 : Int) < 900)⟩
  · cases c <;> cases d <;> cases p <;> decide

namespace Chess.Board.Sound

variable [Build] {b : Board}

theorem mateFree_makeMove (h : b.Sound) (hm : b.abs.MateFree) {mov : Move} (hlist : b.Lists mov)
    (hl : (b.makeMove mov).isLegal = true) : (b.makeMove mov).abs.MateFree := by
  obtain ⟨ply, rfl, hp⟩ := hlist
  rw [h.abs_makeMove hp]
  exact hm.apply ((h.isLegal_iff hp).mp hl)

theorem mateFree_makeNull (h : b.Sound) (hm : b.abs.MateFree) (hc : b.inCheck = false) :
    (b.makeMove .null).abs.MateFree := by
  rw [h.sim.makeNull.abs_eq]
  refine hm.pass ?_
  rw [← h.inCheck_iff, hc]
  exact Bool.false_ne_true

/-- A board that is not mated and lists no legal move is not in check. -/
theorem not_inCheck (h : b.Sound) (hm : b.abs.MateFree) {l : List Move}
    (hcovers : b.inCheck = true → ∀ ply, b.abs.Legal ply → ply.Chosen false → ply.encode ∈ l)
    (hnone : ∀ mov ∈ l, (b.makeMove mov).isLegal = false) : b.inCheck = false := by
  by_contra hc
  have hc : b.inCheck = true := Bool.not_eq_false _ ▸ hc
  obtain ⟨ply, hl, hch⟩ := Position.exists_chosen (hm.escape (h.inCheck_iff.mp hc))
  have hno := hnone _ (hcovers hc ply hl hch)
  exact Bool.false_ne_true (hno.symm.trans ((h.isLegal_iff hl.1).mpr hl))

theorem material_mem (h : b.Sound) (c : Color) : 0 ≤ b.material.get c ∧ b.material.get c ≤ 57600 := by
  rw [h.sim.consistent.material c]
  constructor
  · exact Finset.sum_nonneg fun sq _ => (manValue_mem c _).1
  · exact Finset.sum_le_card_nsmul Finset.univ _ 900 fun sq _ => (manValue_mem c _).2

/-- The material balance is far from the mate scores. -/
theorem lt_materialDifference (h : b.Sound) : -mate < b.materialDifference + 300 := by
  have h1 := (h.material_mem b.side).1
  have h2 := (h.material_mem b.side.xside).2
  have hmate : mate = 90000 := rfl
  unfold Board.materialDifference
  omega

end Chess.Board.Sound

namespace Search

/-! ## Scores -/

/-- The windows of the scores. -/
structure ScoreWindow (alpha beta : Int) : Prop where
  neg_infty_le : -infty ≤ alpha
  lt : alpha < beta
  le_infty : beta ≤ infty

/-- The score does not look like a mate, unless it is a bound of a fail-hard window. -/
def Mateless (failsoft : Bool) (alpha beta score : Int) : Prop :=
  if failsoft then |score| < mate
  else (score < mate ∨ score = alpha) ∧ (-mate < score ∨ score = beta)

section Scores

variable {fs : Bool} {alpha beta score : Int}

theorem ScoreWindow.negated (h : ScoreWindow alpha beta) : ScoreWindow (-beta) (-alpha) :=
  ⟨neg_le_neg h.le_infty, neg_lt_neg h.lt, neg_le.mp h.neg_infty_le⟩

theorem ScoreWindow.null (h : ScoreWindow alpha beta) : ScoreWindow (-alpha - 1) (-alpha) := by
  obtain ⟨h1, h2, h3⟩ := h
  exact ⟨by omega, by omega, by omega⟩

theorem ScoreWindow.pass (h : ScoreWindow alpha beta) : ScoreWindow (-beta) (-beta + 1) := by
  obtain ⟨h1, h2, h3⟩ := h
  exact ⟨by omega, by omega, by omega⟩

theorem ScoreWindow.raise (h : ScoreWindow alpha beta) {alpha' : Int} (hle : alpha ≤ alpha')
    (hlt : alpha' < beta) : ScoreWindow alpha' beta :=
  ⟨h.neg_infty_le.trans hle, hlt, h.le_infty⟩

/-- A moderate score is mateless for every window. -/
theorem mateless_of_abs_lt (h : |score| < mate) : Mateless fs alpha beta score := by
  unfold Mateless
  split
  · exact h
  · exact ⟨Or.inl (abs_lt.mp h).2, Or.inl (abs_lt.mp h).1⟩

theorem mateless_boundScore_draw (hw : ScoreWindow alpha beta) :
    Mateless false alpha beta (boundScore draw alpha beta) := by
  have hlt := hw.lt
  have hmate : mate = 90000 := rfl
  show (boundScore 0 alpha beta < mate ∨ boundScore 0 alpha beta = alpha) ∧
    (-mate < boundScore 0 alpha beta ∨ boundScore 0 alpha beta = beta)
  unfold boundScore
  split
  · omega
  · split <;> omega

theorem Mateless.ne_intMin (hw : ScoreWindow alpha beta) (h : Mateless fs alpha beta score) :
    score ≠ intMin := by
  have hmate : mate = 90000 := rfl
  have hinfty : infty = 100000 := rfl
  have hmin : intMin = -2147483648 := rfl
  obtain ⟨h1, h2, h3⟩ := hw
  cases fs with
  | true =>
    have h : |score| < mate := h
    rw [abs_lt] at h
    omega
  | false =>
    have h : (score < mate ∨ score = alpha) ∧ (-mate < score ∨ score = beta) := h
    omega

/-- The score of a child from the point of view of its parent. -/
theorem Mateless.negate (hw : ScoreWindow alpha beta) {r : Ret} (h : Mateless fs alpha beta r.score) :
    Mateless fs (-beta) (-alpha) r.negate.score := by
  have hneg : r.negate.score = -r.score := if_neg (h.ne_intMin hw)
  rw [hneg]
  cases fs with
  | true =>
    show |-r.score| < mate
    rw [abs_neg]
    exact h
  | false =>
    have h : (r.score < mate ∨ r.score = alpha) ∧ (-mate < r.score ∨ r.score = beta) := h
    show (-r.score < mate ∨ -r.score = -beta) ∧ (-mate < -r.score ∨ -r.score = -alpha)
    omega

/-- A null window at alpha says as much as the whole window, unless its score is inside. -/
theorem Mateless.widen (hlt : alpha < beta) (h : Mateless fs alpha (alpha + 1) score)
    (hno : ¬ (score > alpha ∧ score < beta)) : Mateless fs alpha beta score := by
  unfold Mateless at *
  cases fs with
  | true => exact h
  | false =>
    have h : (score < mate ∨ score = alpha) ∧ (-mate < score ∨ score = alpha + 1) := h
    show (score < mate ∨ score = alpha) ∧ (-mate < score ∨ score = beta)
    omega

end Scores

/-! ## Loops -/

/-- What a loop knows: with `failsoft` on the best score is moderate or, as long as no move
has been searched, the sentinel; with `failsoft` off alpha is a moderate score, or a bound.
`sentinel` says whether the loop starts with the sentinel. -/
def Grounded (fs sentinel : Bool) (alpha beta : Int) (ls : MoveLoop) : Prop :=
  if fs then |ls.bestscore| < mate ∨ (sentinel = true ∧ ls.first = true ∧ ls.bestscore = -infty)
  else (ls.alpha < mate ∨ ls.alpha = alpha) ∧
    (-mate < ls.alpha ∨ ls.alpha = beta ∨ (sentinel = true ∧ ls.first = true))

section Loops

variable {fs sentinel : Bool} {alpha beta : Int} {ls : MoveLoop}

/-- Using a score keeps what the loop knows. -/
theorem Grounded.take (h : Grounded fs sentinel alpha beta ls) (hlt : ls.alpha < beta) {r : Ret}
    (hr : Mateless fs ls.alpha beta r.score) (node : Node) (mov : Move) (child : Node) :
    Grounded fs sentinel alpha beta
      (({ ls.enter.taint r with node := node } : MoveLoop).take mov child r) := by
  have hmate : mate = 90000 := rfl
  have hinfty : infty = 100000 := rfl
  unfold Grounded Mateless at *
  cases fs with
  | true =>
    have hr : |r.score| < mate := hr
    have h : |ls.bestscore| < mate ∨ (sentinel = true ∧ ls.first = true ∧ ls.bestscore = -infty) := h
    refine Or.inl ?_
    show |if r.score > ls.bestscore then r.score else ls.bestscore| < mate
    split
    · exact hr
    · rw [abs_lt] at *
      omega
  | false =>
    have h : (ls.alpha < mate ∨ ls.alpha = alpha) ∧
      (-mate < ls.alpha ∨ ls.alpha = beta ∨ (sentinel = true ∧ ls.first = true)) := h
    have hr : (r.score < mate ∨ r.score = ls.alpha) ∧ (-mate < r.score ∨ r.score = beta) := hr
    show ((if r.score > ls.alpha then r.score else ls.alpha) < mate ∨
        (if r.score > ls.alpha then r.score else ls.alpha) = alpha) ∧
      (-mate < (if r.score > ls.alpha then r.score else ls.alpha) ∨
        (if r.score > ls.alpha then r.score else ls.alpha) = beta ∨ _)
    split <;> omega

theorem isDraw_eq_draw {node : Node} {drawscore : Int} (h : node.isDraw = some drawscore) :
    drawscore = draw := by
  unfold Node.isDraw at h
  split at h
  · exact (Option.some.inj h).symm
  · split at h
    · exact (Option.some.inj h).symm
    · split at h
      · exact (Option.some.inj h).symm
      · cases h

/-- The loop of `quiescence_search` starts from the static score. -/
theorem grounded_quiesce (env : SearchEnv) (node : Node) {eval : Int} (heval : |eval| < mate) :
    Grounded env.failsoft false (max eval alpha) beta
      ⟨node, max eval alpha, if env.failsoft then eval else -infty, 0, true⟩ := by
  unfold Grounded
  cases env.failsoft with
  | true => exact Or.inl heval
  | false =>
    rw [abs_lt] at heval
    exact ⟨Or.inr rfl, Or.inl (lt_of_lt_of_le heval.1 (le_max_left _ _))⟩

/-- The loop of `search` starts from the sentinel. -/
theorem grounded_search (env : SearchEnv) (node : Node) (alpha beta : Int) :
    Grounded env.failsoft true alpha beta ⟨node, alpha, -infty, 0, true⟩ := by
  unfold Grounded
  cases env.failsoft with
  | true => exact Or.inr ⟨rfl, rfl, rfl⟩
  | false => exact ⟨Or.inr rfl, Or.inr (Or.inr ⟨rfl, rfl⟩)⟩

/-- A null move that cuts has a moderate score, or proves that beta is one. -/
theorem mateless_cut {env : SearchEnv} {beta : Int} {r : Ret} (hw : ScoreWindow (-beta) (-beta + 1))
    (hr : Mateless env.failsoft (-beta) (-beta + 1) r.score) (hge : r.negate.score ≥ beta) (alpha : Int) :
    Mateless env.failsoft alpha beta (if env.failsoft then r.negate.score else beta) := by
  have hneg := hr.negate hw
  cases hfs : env.failsoft with
  | true =>
    rw [hfs] at hneg
    exact hneg
  | false =>
    rw [hfs] at hneg
    have hneg : (r.negate.score < mate ∨ r.negate.score = -(-beta + 1)) ∧
      (-mate < r.negate.score ∨ r.negate.score = - -beta) := hneg
    exact ⟨Or.inl (by show beta < mate; omega), Or.inr rfl⟩

/-- The end of `quiescence_search`: no check has been left without a move. -/
theorem mateless_quiesceScore {env : SearchEnv} {ply : Nat} {eval : Int}
    (hmate : (decide (ls.moves = 0) && ls.node.incheck) = false)
    (hg : Grounded env.failsoft false (max eval alpha) beta ls) (heval : |eval| < mate) :
    Mateless env.failsoft alpha beta (quiesceScore env ply beta ls) := by
  unfold quiesceScore
  simp only [hmate, Bool.false_eq_true, if_false]
  unfold Grounded at hg
  unfold Mateless
  cases hfs : env.failsoft with
  | true =>
    have hg : |ls.bestscore| < mate ∨ (false = true ∧ ls.first = true ∧ ls.bestscore = -infty) := by
      rwa [hfs] at hg
    exact hg.resolve_right fun h => Bool.false_ne_true h.1
  | false =>
    have hg : (ls.alpha < mate ∨ ls.alpha = max eval alpha) ∧
        (-mate < ls.alpha ∨ ls.alpha = beta ∨ (false = true ∧ ls.first = true)) := by
      rwa [hfs] at hg
    obtain ⟨h1, h2⟩ := hg
    show (ls.alpha < mate ∨ ls.alpha = alpha) ∧ (-mate < ls.alpha ∨ ls.alpha = beta)
    rw [abs_lt] at heval
    refine ⟨?_, h2.imp_right fun h => h.resolve_right fun h => Bool.false_ne_true h.1⟩
    omega

end Loops

/-! ## Events -/

/-- No call of `search` returned a score that looks like a mate. -/
def Phantomless (fs : Bool) (es : List Event) : Prop :=
  ∀ e ∈ es, match e with
    | .returned .search alpha beta r _ => Mateless fs alpha beta r.score
    | _ => True

section Events

variable {fs : Bool} {es es' : List Event}

/-- The events that neither of the two conditions sees. -/
def Quiet (es : List Event) : Prop :=
  ∀ e ∈ es, match e with
    | .returned .search _ _ _ _ | .looped _ _ _ => False
    | _ => True

theorem Quiet.phantomless (h : Quiet es) (fs : Bool) : Phantomless fs es := by
  intro e he
  have := h e he
  cases e with
  | returned c => cases c with
    | search => exact this.elim
    | root | quiesce => trivial
  | _ => trivial

theorem phantomless_append : Phantomless fs (es ++ es') ↔ Phantomless fs es ∧ Phantomless fs es' :=
  List.forall_mem_append

theorem Quiet.phantomless_iff (h : Quiet es') : Phantomless fs (es ++ es') ↔ Phantomless fs es :=
  phantomless_append.trans (and_iff_left (h.phantomless fs))

theorem quiet_nil : Quiet [] := List.forall_mem_nil _

theorem Quiet.append (h : Quiet es) (h' : Quiet es') : Quiet (es ++ es') :=
  List.forall_mem_append.mpr ⟨h, h'⟩

theorem quiet_takeEvents (ls : MoveLoop) (mov : Move) (child : Node) (r : Ret) :
    Quiet (ls.takeEvents mov child r) := by
  intro e he
  rcases MoveLoop.mem_takeEvents he with ⟨_, rfl | rfl⟩ | rfl <;> trivial

/-- What follows the loop in `search`. -/
theorem quiet_finish (node : Node) :
    Quiet (.wrote .hash node.tainted :: (historyEvents node ++ killerEvents node)) := by
  refine List.forall_mem_cons.mpr ⟨trivial, List.forall_mem_append.mpr ⟨fun e he => ?_, fun e he => ?_⟩⟩
  · rw [mem_historyEvents he]
    trivial
  · rw [mem_killerEvents he]
    trivial

variable [Build]

/-- The node has legal moves, and pruning skips all of them. -/
def Starved (node : Node) (depth alpha : Int) : Prop :=
  node.board.legalMoves.moves ≠ [] ∧ ∀ mov ∈ node.board.legalMoves.moves,
    skipped (fprune node depth alpha) node (node.makeMove mov none) mov = true

/-- With `failsoft` on no loop of `search` was starved. -/
def Fed (fs : Bool) (es : List Event) : Prop :=
  ∀ e ∈ es, match e with
    | .looped node depth alpha => fs = true → ¬ Starved node depth alpha
    | _ => True

theorem Quiet.fed (h : Quiet es) (fs : Bool) : Fed fs es := by
  intro e he
  have := h e he
  cases e with
  | looped => exact this.elim
  | _ => trivial

theorem fed_append : Fed fs (es ++ es') ↔ Fed fs es ∧ Fed fs es' := List.forall_mem_append

theorem Quiet.fed_iff (h : Quiet es') : Fed fs (es ++ es') ↔ Fed fs es :=
  fed_append.trans (and_iff_left (h.fed fs))

/-- The return of a call that was mateless as far as its parts are. -/
theorem returned_iff {alpha beta : Int} {r : Ret} {s : Bool}
    (h : Phantomless fs es ∧ Mateless fs alpha beta r.score ↔ Fed fs es) :
    Phantomless fs (es ++ [.returned .search alpha beta r s]) ↔
      Fed fs (es ++ [.returned .search alpha beta r s]) := by
  rw [phantomless_append, fed_append, ← h]
  exact ⟨fun h => ⟨⟨h.1, h.2 _ List.mem_cons_self⟩, List.forall_mem_singleton.mpr trivial⟩,
    fun h => ⟨h.1.1, List.forall_mem_singleton.mpr h.1.2⟩⟩

end Events

/-! ## Starved nodes -/

section Starving

variable [Build] {node : Node}

/-- A node is starved if it meets legal moves in its list, but searches none. -/
theorem starved_iff {l : List Move} (hl : node.Covers l) (hs : node.Sound)
    (hlists : ∀ mov ∈ l, node.board.Lists mov) (depth alpha : Int) :
    Starved node depth alpha ↔ ¬ (∀ mov ∈ l, (node.board.makeMove mov).isLegal = false) ∧
      ¬ ∃ mov ∈ l, Searched (fprune node depth alpha) node mov := by
  have hmem := hs.board.mem_legalMoves
  constructor
  · rintro ⟨hne, hall⟩
    obtain ⟨mov, hmov⟩ := List.exists_mem_of_ne_nil _ hne
    obtain ⟨ply, -, hlegal⟩ := (hmem mov).mp hmov
    constructor
    · intro hnone
      obtain ⟨ply, hlegal, hch⟩ := Position.exists_chosen ⟨ply, hlegal⟩
      have hno := hnone _ (hl ply hlegal hch)
      exact Bool.false_ne_true (hno.symm.trans ((hs.board.isLegal_iff hlegal.1).mpr hlegal))
    · rintro ⟨mov, hmov, hleg, hskip⟩
      obtain ⟨ply, rfl, hp⟩ := hlists mov hmov
      have hskip' := hall _ ((hmem _).mpr ⟨ply, rfl, (hs.board.isLegal_iff hp).mp hleg⟩)
      exact Bool.false_ne_true (hskip.symm.trans hskip')
  · rintro ⟨hsome, hno⟩
    have hskip : ∀ ply, node.board.abs.Legal ply → ply.Chosen false →
        skipped (fprune node depth alpha) node (node.makeMove ply.encode none) ply.encode = true := by
      intro ply hlegal hch
      by_contra h
      exact hno ⟨_, hl ply hlegal hch, (hs.board.isLegal_iff hlegal.1).mpr hlegal, Bool.not_eq_true _ ▸ h⟩
    obtain ⟨mov, hmov, hleg⟩ : ∃ mov ∈ l, (node.board.makeMove mov).isLegal = true := by
      by_contra h
      refine hsome fun mov hmov => ?_
      rw [← Bool.not_eq_true]
      exact fun hleg => h ⟨mov, hmov, hleg⟩
    obtain ⟨ply, rfl, hp⟩ := hlists mov hmov
    have hlegal := (hs.board.isLegal_iff hp).mp hleg
    refine ⟨List.ne_nil_of_mem ((hmem _).mpr ⟨ply, rfl, hlegal⟩), fun mov hmov => ?_⟩
    obtain ⟨ply, rfl, hlegal⟩ := (hmem mov).mp hmov
    cases ply with
    | move src dst p cap => exact hskip _ hlegal trivial
    | enpassant src dst => exact hskip _ hlegal trivial
    | castle f => exact hskip _ hlegal trivial
    | promote src dst p cap =>
      obtain ⟨⟨hc, hlast, hp⟩, hsafe⟩ := hlegal
      have hking : p ≠ .king := by
        rintro rfl
        exact absurd hp (by decide)
      have hqueen : node.board.abs.Legal (.promote src dst .queen cap) :=
        ⟨⟨hc, hlast, by decide⟩, (safe_promote (by decide)).mpr ((safe_promote hking).mp hsafe)⟩
      have h := hskip _ hqueen List.mem_cons_self
      have hpromo : (Ply.promote src dst .queen cap).encode.isPromotion = true :=
        Ply.isPromotion_encode _
      unfold skipped at h
      simp [hpromo] at h

end Starving

end Search

end HoiChess
