import HoiChess.Common.Iteration
import HoiChess.Common.SoundNode
import HoiChess.Common.Calls

/-!
# Best lines

Whatever the hash table holds and whenever the search is stopped, every best line that is
ever set can be played on the board of its node, and `iterate` returns a legal move of the
root (`iterate_plays`).
-/

namespace HoiChess

open Chess Rules Exec

namespace Search

section Lines

variable [Build]

/-- The moves can be played one after the other. -/
def Plays (b : Board) : List Move → Prop
  | [] => True
  | mov :: l => mov ∈ b.legalMoves.moves ∧ Plays (b.makeMove mov) l

theorem Plays.take {b : Board} {l : List Move} (h : Plays b l) (n : Nat) : Plays b (l.take n) := by
  induction l generalizing b n with
  | nil =>
    rw [List.take_nil]
    trivial
  | cons mov l ih =>
    cases n with
    | zero => trivial
    | succ n => exact ⟨h.1, ih h.2 n⟩

/-- The best line of the node can be played on its board. -/
def LineOk (node : Node) : Prop := Plays node.board node.bestLine.moves

/-- Every best line that was set can be played. -/
def LinesOk (es : List Event) : Prop :=
  ∀ e ∈ es, match e with
    | .bestLine board line => Plays board line.moves
    | _ => True

variable {es es' : List Event} {node : Node}

theorem linesOk_nil : LinesOk [] := List.forall_mem_nil _

theorem LinesOk.append (h : LinesOk es) (h' : LinesOk es') : LinesOk (es ++ es') :=
  List.forall_mem_append.mpr ⟨h, h'⟩

/-- A listed move that the program finds legal is one of the legal moves. -/
theorem mem_legalMoves {b : Board} (hb : b.Sound) {mov : Move} (hlist : b.Lists mov)
    (hl : (b.makeMove mov).isLegal = true) : mov ∈ b.legalMoves.moves := by
  obtain ⟨ply, rfl, hp⟩ := hlist
  exact (hb.sim.mem_legalMoves hb.sane hb.materialOk _).mpr ⟨ply, rfl, (hb.isLegal_iff hp).mp hl⟩

/-- A move in front of a line of the child. -/
theorem LineOk.setBest {child : Node} {mov : Move} (hmov : mov ∈ node.board.legalMoves.moves)
    (hboard : child.board = node.board.makeMove mov) (h : LineOk child) :
    LineOk (node.setBest mov child) := by
  refine ⟨hmov, Plays.take ?_ _⟩
  show Plays (node.board.makeMove mov) child.bestLine.moves
  rw [← hboard]
  exact h

/-- The first move of a best line is legal. -/
theorem LineOk.getBestMove (h : LineOk node) (hne : node.getBestMove ≠ .noMove) :
    node.getBestMove ∈ node.board.legalMoves.moves := by
  unfold LineOk at h
  unfold Node.getBestMove PvLine.head at hne ⊢
  cases hl : node.bestLine.moves with
  | nil =>
    rw [hl] at hne
    exact absurd rfl hne
  | cons mov l =>
    rw [hl] at h
    exact h.1

theorem lineOk_probes {env : SearchEnv} {hashed : Bool} {n : Node} {depth alpha beta : Int}
    {hit : Option Int} (hp : Probes env hashed node depth alpha beta (n, hit)) (h : LineOk node) :
    LineOk n := by
  obtain ⟨hf, _, _, hline⟩ := frame_probes hp
  unfold LineOk
  rw [hf.board, hline]
  exact h

theorem lineOk_start {n : Node} {beyond : BitVec 32} {history : PerColor HistoryTable}
    (hstart : node.start beyond history = some n) (h : LineOk node) : LineOk n := by
  unfold LineOk
  rw [(Node.frame_start hstart).board, (Node.results_start hstart).2]
  exact h

theorem lineOk_pick (h : LineOk node) : LineOk node.pick.1 := by
  unfold LineOk
  rw [(Node.keeps_pick node).board, (Node.results_pick node).2]
  exact h

theorem lineOk_addKiller (h : LineOk node) (mov : Move) : LineOk (node.addKiller mov) := by
  unfold LineOk
  rw [(Node.frame_addKiller node mov).board, (Node.results_addKiller node mov).2]
  exact h

end Lines

theorem linesOk_finish [Build] (ls : MoveLoop) (depth alpha : Int) :
    LinesOk (.looped ls.node depth alpha ::
      .wrote .hash ls.node.tainted :: (historyEvents ls.node ++ killerEvents ls.node)) := by
  refine List.forall_mem_cons.mpr ⟨trivial, List.forall_mem_cons.mpr ⟨trivial, ?_⟩⟩
  refine List.forall_mem_append.mpr ⟨fun e he => ?_, fun e he => ?_⟩
  · rw [mem_historyEvents he]
    trivial
  · rw [mem_killerEvents he]
    trivial

section Runs

variable [Build] {env : SearchEnv} {hashed : Bool}

/-- What a run of each task keeps. -/
def Playing : Task → List Event → Result → Prop
  | .quiesce node _ _ _, es, .ret n _ | .quiesceBody node _ _ _, es, .ret n _
  | .search node _ _ _ _, es, .ret n _ | .searchBody node _ _ _ _, es, .ret n _
  | .moves node _ _ _ _, es, .ret n _ | .root node _ _ _, es, .ret n _
  | .deepen node _ _ _ _, es, .node n | .scout _ node _, es, .ret n _ =>
    node.Sound → LineOk node → LinesOk es ∧ LineOk n
  | .null node _ _ _, es, .cut _ => node.Sound → LinesOk es
  | .loop _ ls, es, .looped ls' _ => ls.node.Sound → LineOk ls.node → LinesOk es ∧ LineOk ls'.node
  | .visit _ ls mov, es, .step st => ls.node.Sound → ls.node.board.Lists mov → LineOk ls.node →
    LinesOk es ∧ LineOk st.loop.node
  | _, _, _ => True

theorem playing_call {k : LoopKind} {child n : Node} {a b : Int} {es : List Event} {r : Ret}
    (h : Playing (k.call child a b) es (.ret n r)) (hs : child.Sound) (hl : LineOk child) :
    LinesOk es ∧ LineOk n := by
  cases k with
  | quiesce => exact h hs hl
  | search => exact h hs hl
  | root => exact h hs hl

/-- The use of a score puts the move in front of a line of the child. -/
theorem playing_take {ls : MoveLoop} {mov : Move} {child : Node} {r : Ret} (h : LineOk ls.node)
    (hbest : LineOk (ls.node.setBest mov child)) :
    LinesOk (ls.takeEvents mov child r) ∧ LineOk (ls.take mov child r).node := by
  constructor
  · intro e he
    rcases MoveLoop.mem_takeEvents he with ⟨_, rfl | rfl⟩ | rfl
    · trivial
    · exact hbest
    · trivial
  · show LineOk (if r.score > ls.bestscore then ls.node.setBest mov child else ls.node)
    split
    · exact hbest
    · exact h

theorem lineOk_note (k : LoopKind) (score : Int) {node : Node} (h : LineOk node) :
    LineOk (k.note score node) := by
  cases k with
  | root => exact h
  | quiesce | search => exact h

theorem playing_quiesceAbort {n : Node} {node ply alpha beta t history n' es ls}
    (hp : Probes env hashed node 0 alpha beta (n, none))
    (hstart : ({ n with type := .quiesce } : Node).start env.beyond history = some n')
    (ih : Playing (.loop (.quiesce ply beta) ⟨n', max (env.eval t n.board alpha beta) alpha,
      if env.failsoft then env.eval t n.board alpha beta else -infty, 0, true⟩) es (.looped ls true)) :
    Playing (.quiesceBody node ply alpha beta) es (.ret ls.node .abort) := by
  intro hs hl
  have hn := lineOk_probes hp hl
  exact ih ((sound_probes hp hs).started hstart (.refl _) ⟨rfl, rfl, rfl, rfl⟩ rfl)
    (lineOk_start hstart hn)

theorem playing_quiesceDone {n : Node} {node ply alpha beta t history n' es ls}
    (hp : Probes env hashed node 0 alpha beta (n, none))
    (hstart : ({ n with type := .quiesce } : Node).start env.beyond history = some n')
    (ih : Playing (.loop (.quiesce ply beta) ⟨n', max (env.eval t n.board alpha beta) alpha,
      if env.failsoft then env.eval t n.board alpha beta else -infty, 0, true⟩) es (.looped ls false)) :
    Playing (.quiesceBody node ply alpha beta) (es ++ [.wrote .hash ls.node.tainted])
      (.ret ls.node ⟨quiesceScore env ply beta ls, false⟩) := by
  intro hs hl
  have hn := lineOk_probes hp hl
  obtain ⟨hes, hls⟩ := ih ((sound_probes hp hs).started hstart (.refl _) ⟨rfl, rfl, rfl, rfl⟩ rfl)
    (lineOk_start hstart hn)
  exact ⟨hes.append (List.forall_mem_singleton.mpr trivial), hls⟩

theorem playing_searchMain {node ply depth alpha beta n es₁ s₁ n₂ es₂ s₂ es₃ n₃ r}
    (hp : Probes env hashed node depth alpha beta (n, none))
    (hdeepen : Runs env hashed (.deepen n ply depth alpha beta) s₁ es₂ s₂ (.node n₂))
    (ih₁ : Playing (.null n ply depth beta) es₁ (.cut none))
    (ih₂ : Playing (.deepen n ply depth alpha beta) es₂ (.node n₂))
    (ih₃ : Playing (.moves n₂ ply depth alpha beta) es₃ (.ret n₃ r)) :
    Playing (.searchBody node ply depth alpha beta) (es₁ ++ (es₂ ++ es₃)) (.ret n₃ r) := by
  intro hs hl
  have hn := sound_probes hp hs
  obtain ⟨hes₂, hl₂⟩ := ih₂ hn (lineOk_probes hp hl)
  obtain ⟨hes₃, hl₃⟩ := ih₃ (hdeepen.sound hn) hl₂
  exact ⟨(ih₁ hn).append (hes₂.append hes₃), hl₃⟩

theorem playing_movesDone {node : Node} {ply depth alpha beta history n es ls} {n' : Node}
    (hstart : ({ node with type := .fullwidth, historytable := some node.board.side } : Node).start
      env.beyond history = some n)
    (hn : n' = ls.node ∨ n' = ls.node.addKiller ls.node.getBestMove)
    (ih : Playing (.loop (.search ply (mainDepth node depth alpha) (fprune node depth alpha) beta)
      ⟨n, alpha, -infty, 0, true⟩) es (.looped ls false)) :
    Playing (.moves node ply depth alpha beta)
      (es ++ (.looped ls.node depth alpha :: .wrote .hash ls.node.tainted ::
        (historyEvents ls.node ++ killerEvents ls.node)))
      (.ret n' ⟨searchScore env ply beta ls, false⟩) := by
  intro hs hl
  obtain ⟨hes, hls⟩ := ih (hs.started hstart (.refl _) ⟨rfl, rfl, rfl, rfl⟩ rfl) (lineOk_start hstart hl)
  refine ⟨hes.append (linesOk_finish _ _ _), ?_⟩
  rcases hn with rfl | rfl
  · exact hls
  · exact lineOk_addKiller hls _

theorem playing_rootDone {node : Node} {depth alpha beta history n es s' ls score}
    (hstart : node.start env.beyond history = some n)
    (ih : Playing (.loop (.root depth beta) ⟨n, alpha, -infty, 0, true⟩) es (.looped ls false)) :
    Playing (.root node depth alpha beta)
      (es ++ (historyEvents ls.node ++ [.returned .root alpha beta ⟨score, false⟩ s']))
      (.ret ls.node ⟨score, false⟩) := by
  intro hs hl
  obtain ⟨hes, hls⟩ := ih (hs.start hstart) (lineOk_start hstart hl)
  refine ⟨hes.append (List.forall_mem_append.mpr ⟨fun e he => ?_, List.forall_mem_singleton.mpr trivial⟩),
    hls⟩
  rw [mem_historyEvents he]
  trivial

theorem playing_loopNext {k ls s es₁ s₁ ls' es₂ ls'' aborted} (hpick : ls.node.pick.2 ≠ .noMove)
    (hvisit : Runs env hashed (.visit k { ls with node := ls.node.pick.1 } ls.node.pick.2) s es₁ s₁
      (.step (.next ls')))
    (ih₁ : Playing (.visit k { ls with node := ls.node.pick.1 } ls.node.pick.2) es₁ (.step (.next ls')))
    (ih₂ : Playing (.loop k ls') es₂ (.looped ls'' aborted)) :
    Playing (.loop k ls) (es₁ ++ es₂) (.looped ls'' aborted) := by
  intro hs hl
  obtain ⟨hsound, hlist, _⟩ := hs.visit hpick
  obtain ⟨hes₁, hl₁⟩ := ih₁ hsound hlist (lineOk_pick hl)
  obtain ⟨hes₂, hl₂⟩ := ih₂ (hvisit.frames.keeps.sound hsound) hl₁
  exact ⟨hes₁.append hes₂, hl₂⟩

theorem playing_scoutAgain {k child alpha s es₁ s₁ n₁ r₁ es₂ n₂ r₂}
    (hrun : Runs env hashed (k.call child (-alpha - 1) (-alpha)) s es₁ s₁ (.ret n₁ r₁))
    (ih₁ : Playing (k.call child (-alpha - 1) (-alpha)) es₁ (.ret n₁ r₁))
    (ih₂ : Playing (k.call n₁ (-k.beta) (-alpha)) es₂ (.ret n₂ r₂)) :
    Playing (.scout k child alpha) (es₁ ++ es₂) (.ret n₂ ⟨r₂.negate.score, r₁.aborted || r₂.aborted⟩) := by
  intro hs hl
  obtain ⟨hes₁, hl₁⟩ := playing_call ih₁ hs hl
  obtain ⟨hes₂, hl₂⟩ := playing_call ih₂ (keepsSound_call hrun.sound hs) hl₁
  exact ⟨hes₁.append hes₂, hl₂⟩

/-- **Every run sets only lines that can be played.** -/
theorem Runs.playing {task : Task} {s : Bool} {es : List Event} {s' : Bool} {res : Result}
    (h : Runs env hashed task s es s' res) : Playing task es res := by
  induction h with
  | quiesce _ ih | search _ ih =>
    exact fun hs hl => ⟨(ih hs hl).1.append (List.forall_mem_singleton.mpr trivial), (ih hs hl).2⟩
  | quiesceHit hp | quiesceCut hp | searchHit _ hp =>
    exact fun _ hl => ⟨linesOk_nil, lineOk_probes hp hl⟩
  | quiesceLeaf hp =>
    exact fun _ hl => ⟨List.forall_mem_singleton.mpr trivial, lineOk_probes hp hl⟩
  | quiesceAbort hp _ _ hstart _ ih => exact playing_quiesceAbort hp hstart ih
  | quiesceDone hp _ _ hstart _ ih => exact playing_quiesceDone hp hstart ih
  | searchLeaf _ _ ih => exact ih
  | searchDraw | deepenSkip => exact fun _ hl => ⟨linesOk_nil, hl⟩
  | searchNull _ hp _ ih =>
    exact fun hs hl => ⟨ih (sound_probes hp hs), lineOk_probes hp hl⟩
  | searchMain _ hp _ hdeepen _ ih₁ ih₂ ih₃ => exact playing_searchMain hp hdeepen ih₁ ih₂ ih₃
  | nullSkip => exact fun _ => linesOk_nil
  | nullDone hc _ ih => exact fun hs => (ih (hs.makeNull hc _) trivial).1
  | deepenDone _ _ ih => exact ih
  | movesAbort hstart _ ih =>
    intro hs hl
    exact ih (hs.started hstart (.refl _) ⟨rfl, rfl, rfl, rfl⟩ rfl) (lineOk_start hstart hl)
  | movesDone hstart _ hn ih => exact playing_movesDone hstart hn ih
  | rootAbort hstart _ ih =>
    intro hs hl
    obtain ⟨hes, hls⟩ := ih (hs.start hstart) (lineOk_start hstart hl)
    exact ⟨hes.append (List.forall_mem_singleton.mpr trivial), hls⟩
  | rootDone hstart _ _ ih => exact playing_rootDone hstart ih
  | loopEnd => exact fun _ hl => ⟨linesOk_nil, lineOk_pick hl⟩
  | loopNext hpick hvisit _ ih₁ ih₂ => exact playing_loopNext hpick hvisit ih₁ ih₂
  | loopCut hpick _ ih | loopAbort hpick _ ih =>
    intro hs hl
    obtain ⟨hsound, hlist, _⟩ := hs.visit hpick
    exact ih hsound hlist (lineOk_pick hl)
  | illegal | skipped => exact fun _ _ hl => ⟨linesOk_nil, hl⟩
  | late _ ih => exact ih
  | @visitAbort k ls mov s slot line es s' n r hlegal _ _ ih =>
    exact fun hs hlist hl => ⟨(ih (hs.makeMove hlist slot hlegal line) trivial).1, hl⟩
  | @visitCut k ls ls' mov s slot line es s' n r hlegal _ hscout _ _ hls ih
  | @visitNext k ls ls' mov s slot line es s' n r hlegal _ hscout _ _ hls ih =>
    intro hs hlist hl
    obtain ⟨hes, hn⟩ := ih (hs.makeMove hlist slot hlegal line) trivial
    have hframe : Node.Frame { ls.node.makeMove mov slot with pvline := line } n := hscout.frames
    have hc : ls.node.Continues ls'.node := by
      rw [hls]
      exact (continues_taint ls r).trans (continues_note k r.score _)
    have hls' : LineOk ls'.node := by
      rw [hls]
      exact lineOk_note k r.score hl
    have hmov := mem_legalMoves hs.board hlist hlegal
    have hbest : LineOk (ls'.node.setBest mov n) := by
      refine LineOk.setBest ?_ ?_ hn
      · rw [hc.board]
        exact hmov
      · rw [hc.board]
        exact hframe.board
    obtain ⟨htake, hline⟩ := playing_take (r := r) hls' hbest
    exact ⟨hes.append htake, hline⟩
  | scoutFull _ ih | scoutNull _ _ ih => exact fun hs hl => playing_call ih hs hl
  | scoutAgain hrun _ _ _ ih₁ ih₂ => exact playing_scoutAgain hrun ih₁ ih₂

/-! ## Iterative deepening -/

/-- The best move of an iteration is legal if the best move before it was. -/
theorem Decides.legal {node : Node} {best best' : Move} {score alpha beta : Int} {s : Bool}
    {es : List Event} {d : Decision} (h : Decides node best score alpha beta s es d)
    (hl : LineOk node) (hbest : best ∈ node.board.legalMoves.moves)
    (hd : d = .stop best' ∨ ∃ a b, d = .deeper best' a b) : best' ∈ node.board.legalMoves.moves := by
  have hupdate : (if node.getBestMove ≠ .noMove then node.getBestMove else best) ∈
      node.board.legalMoves.moves := by
    split
    · exact hl.getBestMove ‹_›
    · exact hbest
  cases h with
  | low | high =>
    rcases hd with hd | ⟨_, _, hd⟩ <;> cases hd
  | failed =>
    rcases hd with hd | ⟨_, _, hd⟩
    · cases hd
      exact hbest
    · cases hd
  | done =>
    rcases hd with hd | ⟨_, _, hd⟩
    · cases hd
      exact hupdate
    · cases hd
  | deeper =>
    rcases hd with hd | ⟨_, _, hd⟩
    · cases hd
    · cases hd
      exact hupdate

theorem Decides.linesOk {node : Node} {best : Move} {score alpha beta : Int} {s : Bool}
    {es : List Event} {d : Decision} (h : Decides node best score alpha beta s es d) : LinesOk es := by
  cases h with
  | low | high | failed => exact linesOk_nil
  | done | deeper => exact List.forall_mem_singleton.mpr trivial

theorem Iteration.playing {depth : Nat} {node : Node} {best : Move} {alpha beta : Int} {s s' : Bool}
    {es : List Event} {p : Node × Decision}
    (h : Iteration env hashed depth node best alpha beta s es s' p) (hs : node.Sound)
    (hl : LineOk node) (hbest : best ∈ node.board.legalMoves.moves) :
    LinesOk es ∧ p.1.Sound ∧ LineOk p.1 ∧ p.1.board = node.board ∧
      ∀ best', (p.2 = .stop best' ∨ ∃ a b, p.2 = .deeper best' a b) →
        best' ∈ node.board.legalMoves.moves := by
  induction h with
  | stopped hroot =>
    obtain ⟨hes, hn⟩ := hroot.playing hs hl
    refine ⟨hes, hroot.sound hs, hn, hroot.frames.board, ?_⟩
    rintro best' (hd | ⟨_, _, hd⟩)
    · cases hd
      exact hbest
    · cases hd
  | @again node best alpha beta s es₁ s₁ n r es₂ alpha' beta' es₃ s' res hroot _ hd _ ih =>
    obtain ⟨hes, hn⟩ := hroot.playing hs hl
    have hboard : n.board = node.board := hroot.frames.board
    obtain ⟨hes', hsound, hline, hboard', hlegal⟩ := ih (hroot.sound hs) hn (hboard ▸ hbest)
    exact ⟨hes.append (hd.linesOk.append hes'), hsound, hline, hboard'.trans hboard,
      fun best' h => hboard ▸ hlegal best' h⟩
  | @decided node best alpha beta s es₁ s₁ n r es₂ d hroot _ hd =>
    obtain ⟨hes, hn⟩ := hroot.playing hs hl
    have hboard : n.board = node.board := hroot.frames.board
    exact ⟨hes.append hd.linesOk, hroot.sound hs, hn, hboard,
      fun best' h => hboard ▸ hd.legal hn (hboard ▸ hbest) h⟩

theorem Iterates.playing {depth : Nat} {node : Node} {best : Move} {alpha beta : Int} {s s' : Bool}
    {es : List Event} {p : Node × Move}
    (h : Iterates env hashed depth node best alpha beta s es s' p) (hs : node.Sound)
    (hl : LineOk node) (hbest : best ∈ node.board.legalMoves.moves) :
    LinesOk es ∧ p.2 ∈ node.board.legalMoves.moves := by
  induction h with
  | rest => exact ⟨linesOk_nil, hbest⟩
  | stop hiter =>
    obtain ⟨hes, _, _, _, hlegal⟩ := hiter.playing hs hl hbest
    exact ⟨hes, hlegal _ (Or.inl rfl)⟩
  | late hiter =>
    obtain ⟨hes, _, _, _, hlegal⟩ := hiter.playing hs hl hbest
    exact ⟨hes, hlegal _ (Or.inr ⟨_, _, rfl⟩)⟩
  | again hiter => exact ⟨(hiter.playing hs hl hbest).1, hbest⟩
  | @deeper depth node best alpha beta s es₁ s₁ n best' alpha' beta' es₂ s' res hiter _ ih =>
    obtain ⟨hes, hsound, hline, hboard, hlegal⟩ := hiter.playing hs hl hbest
    have hboard : n.board = node.board := hboard
    have hbest' := hlegal best' (Or.inr ⟨_, _, rfl⟩)
    obtain ⟨hes', hmove⟩ := ih hsound hline (hboard ▸ hbest')
    exact ⟨hes.append hes', hboard ▸ hmove⟩

/-- The root starts with a line of one legal move. -/
theorem lineOk_initRoot {board : Board} (hb : board.Sound) {root : Node}
    (h : (Node.ofBoard board).initRoot = some root) :
    root.board = board ∧ LineOk root ∧ root.getBestMove ∈ board.legalMoves.moves := by
  unfold Node.initRoot at h
  simp only at h
  split at h
  · cases h
  · rename_i mov rest hmoves
    cases h
    have hmem : mov ∈ (board.filterIllegal (board.generateMoves false .empty)).moves := by
      have hmoves : (board.filterIllegal (board.generateMoves false .empty)).moves = mov :: rest := hmoves
      rw [hmoves]
      exact List.mem_cons_self
    rw [Board.filterIllegal, Movelist.mem_filterBy] at hmem
    have hlegal := mem_legalMoves hb (hb.lists_generateMoves hmem.1) hmem.2
    exact ⟨rfl, ⟨hlegal, trivial⟩, hlegal⟩

/-- **The engine answers with a legal move, and all its lines can be played.** -/
theorem iterate_plays {board : Board} (hb : Reached board) (hmoves : board.legalMoves.moves ≠ [])
    {depth : Nat} (hdepth : depth ≤ maxdepth) {st : SearchState} (hst : st.nextSlot = 0) {fuel : Nat}
    (hfuel : depth + maxply < fuel) :
    ∃ root, (Node.ofBoard board).initRoot = some root ∧ Plays board root.bestLine.moves ∧
      ∃ p st', iterate env fuel depth root st = .done p st' ∧ p.2 ∈ board.legalMoves.moves ∧
        ∃ es, st'.trace = st.trace ++ es ∧ LinesOk es := by
  have hsound := hb.sound
  obtain ⟨mov, hmem⟩ := List.exists_mem_of_ne_nil _ hmoves
  obtain ⟨ply, rfl, hl⟩ := (hsound.sim.mem_legalMoves hsound.sane hsound.materialOk mov).mp hmem
  obtain ⟨root, hroot⟩ := Node.exists_initRoot hsound ⟨ply, hl⟩
  obtain ⟨hboard, hline, hbest⟩ := lineOk_initRoot hsound hroot
  obtain ⟨p, st', hrun⟩ : ∃ p st', iterate env fuel depth root st = .done p st' :=
    iterate_returns hroot hdepth hfuel hst
  obtain ⟨_, es, htrace, hruns⟩ :=
    @iterate_refines _ env true fuel depth root st p st' hrun (Or.inl rfl)
  obtain ⟨hes, hmove⟩ := hruns.playing (Node.sound_initRoot hsound hroot) hline (hboard.symm ▸ hbest)
  refine ⟨root, hroot, ?_, p, st', hrun, hboard ▸ hmove, es, htrace, hes⟩
  rw [← hboard]
  exact hline

end Runs

/-- The answer from the opening position when the search is stopped at once. -/
theorem iterate_plays_opening : ∃ b, @Board.parseFen sampleBuild openingFen = .accepted b ∧
    ∃ root, @Node.initRoot (.ofBoard b) sampleBuild = some root ∧
      @Plays sampleBuild b root.bestLine.moves ∧
        ∃ p st',
          @iterate sampleBuild (stillEnv false 0) 2000 5 root { idle with stop := true } = .done p st' ∧
          p.2 ∈ (@Board.legalMoves sampleBuild b).moves ∧
            ∃ es, st'.trace = idle.trace ++ es ∧ @LinesOk sampleBuild es := by
  let _ := sampleBuild
  obtain ⟨b, hb, hsim⟩ := parseFen_opening
  have hlegal : Rules.opening.Legal (.move 12 28 .pawn none) := by decide +kernel
  have hmem := (hsim.mem_legalMoves sane_opening materialOk_opening _).mpr ⟨_, rfl, hlegal⟩
  exact ⟨b, hb, iterate_plays (.opening hb) (List.ne_nil_of_mem hmem) (by decide) rfl (by decide)⟩

end Search

end HoiChess
