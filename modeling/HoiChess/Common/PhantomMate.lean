import HoiChess.Chess.Playable
import HoiChess.Common.Mateless

/-!
# Phantom mates

Without a hash table, with moderate static scores, and where no position ahead is a
checkmate, a search that is not stopped should not return a mate score of its own making.
With `failsoft` off it never does.  With `failsoft` on it does exactly where futility pruning
skips all legal moves of a node and leaves it with the sentinel `-INFTY`
(`search_mateless_iff`).
-/

namespace HoiChess

open Chess Rules Exec

namespace Search

/-! ## Runs -/

section Runs

variable [Build] {env : SearchEnv} {hashed : Bool}

theorem probes_unhashed {node n : Node} {depth alpha beta : Int} {hit : Option Int}
    (h : Probes env false node depth alpha beta (n, hit)) : n = node ∧ hit = none := by
  obtain ⟨t, ht, h⟩ := h
  obtain rfl := ht.resolve_left Bool.false_ne_true
  cases h
  exact ⟨rfl, rfl⟩

/-- The tasks of a quiescence search. -/
def Quiesces : Task → Prop
  | .quiesce _ _ _ _ | .quiesceBody _ _ _ _ | .loop (.quiesce _ _) _ | .visit (.quiesce _ _) _ _
  | .scout (.quiesce _ _) _ _ => True
  | _ => False

theorem Runs.quiet {task : Task} {s : Bool} {es : List Event} {s' : Bool} {res : Result}
    (h : Runs env hashed task s es s' res) : Quiesces task → Quiet es := by
  induction h with
  | quiesce _ ih => exact fun hq => (ih hq).append (List.forall_mem_singleton.mpr trivial)
  | quiesceHit | quiesceCut | loopEnd | illegal | skipped => exact fun _ => quiet_nil
  | quiesceLeaf => exact fun _ => List.forall_mem_singleton.mpr trivial
  | quiesceAbort _ _ _ _ _ ih => exact fun _ => ih trivial
  | quiesceDone _ _ _ _ _ ih => exact fun _ => (ih trivial).append (List.forall_mem_singleton.mpr trivial)
  | @loopNext k _ _ _ _ _ _ _ _ _ _ _ _ ih₁ ih₂ =>
    cases k with
    | quiesce => exact fun hq => (ih₁ hq).append (ih₂ hq)
    | search | root => exact False.elim
  | @loopCut k _ _ _ _ _ _ _ ih | @loopAbort k _ _ _ _ _ _ _ ih =>
    cases k with
    | quiesce => exact ih
    | search | root => exact False.elim
  | late _ ih => exact ih
  | @visitAbort k _ _ _ _ _ _ _ _ _ _ _ _ ih =>
    cases k with
    | quiesce => exact ih
    | search | root => exact False.elim
  | @visitCut k _ _ _ _ _ _ _ _ _ _ _ _ _ _ _ _ ih | @visitNext k _ _ _ _ _ _ _ _ _ _ _ _ _ _ _ _ ih =>
    cases k with
    | quiesce => exact fun hq => (ih hq).append (quiet_takeEvents _ _ _ _)
    | search | root => exact False.elim
  | @scoutFull k _ _ _ _ _ _ _ _ ih | @scoutNull k _ _ _ _ _ _ _ _ _ ih =>
    cases k with
    | quiesce => exact ih
    | search | root => exact False.elim
  | @scoutAgain k _ _ _ _ _ _ _ _ _ _ _ _ _ _ _ ih₁ ih₂ =>
    cases k with
    | quiesce => exact fun hq => (ih₁ hq).append (ih₂ hq)
    | search | root => exact False.elim
  | _ => exact False.elim

/-- The moves of the loop are searched by `search` with a positive depth. -/
def LoopKind.Deep : LoopKind → Prop
  | .quiesce _ _ => False
  | .search _ depth _ _ | .root depth _ => 0 < depth - 1

/-- What a run of each task keeps that is not stopped. -/
def Plain (fs : Bool) : Task → List Event → Result → Prop
  | .quiesce node _ alpha beta, _, .ret _ r
  | .quiesceBody node _ alpha beta, _, .ret _ r => ScoreWindow alpha beta → node.Sound →
    node.board.abs.MateFree → Mateless fs alpha beta r.score
  | .search node _ depth alpha beta, es, .ret _ r => ScoreWindow alpha beta → node.Sound →
    node.board.abs.MateFree → (0 < depth → node.Complete) →
    (Phantomless fs es ↔ Fed fs es) ∧ (Phantomless fs es → Mateless fs alpha beta r.score)
  | .searchBody node _ depth alpha beta, es, .ret _ r => ScoreWindow alpha beta → node.Sound →
    node.board.abs.MateFree → (0 < depth → node.Complete) →
    (Phantomless fs es ∧ Mateless fs alpha beta r.score ↔ Fed fs es)
  | .moves node _ _ alpha beta, es, .ret _ r => ScoreWindow alpha beta → node.Sound →
    node.board.abs.MateFree → node.Complete →
    (Phantomless fs es ∧ Mateless fs alpha beta r.score ↔ Fed fs es)
  | .null node _ _ beta, es, .cut score => ScoreWindow (-beta) (-beta + 1) → node.Sound →
    node.board.abs.MateFree → (Phantomless fs es ↔ Fed fs es) ∧
      (Phantomless fs es → ∀ v, score = some v → ∀ alpha, Mateless fs alpha beta v)
  | .deepen node _ _ alpha beta, es, .node _ => ScoreWindow alpha beta → node.Sound →
    node.board.abs.MateFree → node.Complete → (Phantomless fs es ↔ Fed fs es)
  | .loop k ls, es, .looped ls' _ => ScoreWindow ls.alpha k.beta → ls.node.Sound →
    ls.node.board.abs.MateFree → (Phantomless fs es ↔ Fed fs es) ∧
      (Phantomless fs es → ∀ sentinel alpha, Grounded fs sentinel alpha k.beta ls →
        Grounded fs sentinel alpha k.beta ls')
  | .visit k ls mov, es, .step st => ScoreWindow ls.alpha k.beta → ls.node.Sound →
    ls.node.board.abs.MateFree → ls.node.board.Lists mov → (Phantomless fs es ↔ Fed fs es) ∧
      (∀ ls', st = .next ls' → ScoreWindow ls'.alpha k.beta) ∧
      (Phantomless fs es → ∀ sentinel alpha, Grounded fs sentinel alpha k.beta ls →
        Grounded fs sentinel alpha k.beta st.loop)
  | .scout k child alpha, es, .ret _ r => ScoreWindow alpha k.beta → child.Sound →
    child.board.abs.MateFree → (k.Deep → child.Complete) → (Phantomless fs es ↔ Fed fs es) ∧
      (Phantomless fs es → Mateless fs alpha k.beta r.score)
  | _, _, _ => True

theorem plain_call {fs : Bool} {k : LoopKind} {child n : Node} {a b : Int} {s s' : Bool}
    {es : List Event} {r : Ret} (hrun : Runs env hashed (k.call child a b) s es s' (.ret n r))
    (h : Plain fs (k.call child a b) es (.ret n r)) (hw : ScoreWindow a b) (hs : child.Sound)
    (hm : child.board.abs.MateFree) (hc : k.Deep → child.Complete) :
    (Phantomless fs es ↔ Fed fs es) ∧ (Phantomless fs es → Mateless fs a b r.score) := by
  cases k with
  | quiesce =>
    have hquiet := hrun.quiet trivial
    exact ⟨iff_of_true (hquiet.phantomless fs) (hquiet.fed fs), fun _ => h hw hs hm⟩
  | search => exact h hw hs hm hc
  | root => exact h hw hs hm hc

/-- A child is searched again with a complete list. -/
theorem complete_call {k : LoopKind} {child n : Node} {a b : Int} {s s' : Bool} {es : List Event}
    {r : Ret} (h : Runs env hashed (k.call child a b) s es s' (.ret n r)) (hs : child.Sound)
    (hc : k.Deep → child.Complete) (hk : k.Deep) : n.Complete := by
  cases k with
  | quiesce => exact hk.elim
  | search => exact h.complete hk hs (hc hk)
  | root => exact h.complete hk hs (hc hk)

omit [Build] in
/-- A node without a legal move is no phantom: it is not in check. -/
theorem mateless_unmoved {ply : Nat} {alpha beta : Int} {ls : MoveLoop} (hw : ScoreWindow alpha beta)
    (hmoves : ls.moves = 0) (hcheck : ls.node.incheck = false) (halpha : ls.alpha = alpha) :
    Mateless env.failsoft alpha beta (searchScore env ply beta ls) := by
  unfold searchScore
  simp only [hmoves, hcheck, Bool.false_eq_true, if_false, if_true]
  cases hfs : env.failsoft with
  | true =>
    show |(0 : Int)| < mate
    decide
  | false =>
    rw [halpha]
    exact mateless_boundScore_draw hw

omit [Build] in
/-- A loop that has searched a move has a score that is grounded in it. -/
theorem mateless_grounded {fs : Bool} {alpha beta : Int} {ls : MoveLoop}
    (hg : Grounded fs true alpha beta ls) (hfirst : ls.first = false) :
    Mateless fs alpha beta (if fs then ls.bestscore else ls.alpha) := by
  unfold Grounded at hg
  unfold Mateless
  cases fs with
  | true =>
    have hg : |ls.bestscore| < mate ∨ (true = true ∧ ls.first = true ∧ ls.bestscore = -infty) := hg
    exact hg.resolve_right fun h => Bool.false_ne_true (hfirst.symm.trans h.2.1)
  | false =>
    have hg : (ls.alpha < mate ∨ ls.alpha = alpha) ∧
        (-mate < ls.alpha ∨ ls.alpha = beta ∨ (true = true ∧ ls.first = true)) := hg
    exact ⟨hg.1, hg.2.imp_right fun h =>
      h.resolve_right fun h => Bool.false_ne_true (hfirst.symm.trans h.2)⟩

/-- Where every legal move is pruned, the lower bound is far above that of a mate. -/
theorem lt_alpha_of_pruned {n : Node} {depth alpha : Int} (hs : n.Sound)
    (hsome : ¬ ∀ mov ∈ n.todo, (n.board.makeMove mov).isLegal = false)
    (hno : ¬ ∃ mov ∈ n.todo, Searched (fprune n depth alpha) n mov) : -mate < alpha := by
  have hfprune : fprune n depth alpha = true := by
    by_contra h
    refine hsome fun mov hmem => ?_
    rw [← Bool.not_eq_true]
    intro hleg
    refine hno ⟨mov, hmem, hleg, ?_⟩
    unfold skipped
    rw [Bool.eq_false_iff.mpr h]
    rfl
  have hlow : n.material + 300 ≤ alpha := by
    unfold fprune marginBelow at hfprune
    simp at hfprune
    omega
  have hmat := hs.board.lt_materialDifference
  rw [← hs.material] at hmat
  have hmate : mate = 90000 := rfl
  omega

/-- The end of `search`: its score is a phantom exactly if the node is starved. -/
theorem mateless_searchScore_iff (ply : Nat) {depth alpha beta : Int} {ls : MoveLoop} {n : Node}
    (hw : ScoreWindow alpha beta) (hs : n.Sound) (hm : n.board.abs.MateFree)
    (hcovers : n.Covers n.todo) (hlists : ∀ mov ∈ n.todo, n.board.Lists mov)
    (hf : n.Frame ls.node)
    (hwalk : Walk (fprune n depth alpha) ⟨n, alpha, -infty, 0, true⟩ n.todo ls)
    (hg : Grounded env.failsoft true alpha beta ls) :
    Mateless env.failsoft alpha beta (searchScore env ply beta ls) ↔
      (env.failsoft = true → ¬ Starved n depth alpha) := by
  have hstarved := starved_iff hcovers hs hlists depth alpha
  have hsearched := hwalk.searched rfl
  have hunused := hwalk.unused rfl
  have hcounted : ls.moves = 0 ↔ ∀ mov ∈ n.todo, (n.board.makeMove mov).isLegal = false := hwalk.counted
  by_cases hmoves : ls.moves = 0
  · have hnone := hcounted.mp hmoves
    have hcheck : ls.node.incheck = false := by
      rw [hf.incheck, hs.incheck]
      exact hs.board.not_inCheck hm (fun _ => hcovers) hnone
    have hfirst : ls.first = true := by
      rw [← Bool.not_eq_false]
      intro hfalse
      obtain ⟨mov, hmem, hmov⟩ := hsearched.mp hfalse
      exact Bool.false_ne_true ((hnone mov hmem).symm.trans hmov.1)
    exact iff_of_true (mateless_unmoved hw hmoves hcheck (hunused hfirst).1) fun _ h =>
      (hstarved.mp h).1 hnone
  · have hsome := fun h => hmoves (hcounted.mpr h)
    have hscore : searchScore env ply beta ls = if env.failsoft then ls.bestscore else ls.alpha := by
      unfold searchScore
      simp only [hmoves, if_false]
    rw [hscore]
    cases hfirst : ls.first with
    | false =>
      exact iff_of_true (mateless_grounded hg hfirst) fun _ h =>
        (hstarved.mp h).2 (hsearched.mp hfirst)
    | true =>
      have halpha : ls.alpha = alpha := (hunused hfirst).1
      have hbest : ls.bestscore = -infty := (hunused hfirst).2
      have hno : ¬ ∃ mov ∈ n.todo, Searched (fprune n depth alpha) n mov := by
        intro h
        exact Bool.false_ne_true ((hsearched.mpr h).symm.trans hfirst)
      cases hfs : env.failsoft with
      | true =>
        refine iff_of_false ?_ fun h => h rfl (hstarved.mpr ⟨hsome, hno⟩)
        show ¬ |ls.bestscore| < mate
        rw [hbest]
        decide
      | false =>
        have hlow := lt_alpha_of_pruned hs hsome hno
        rw [← halpha] at hlow
        exact iff_of_true ⟨.inr halpha, .inl hlow⟩ nofun

theorem starved_frame {node node' : Node} (hf : node.Frame node') (depth alpha : Int) :
    Starved node' depth alpha ↔ Starved node depth alpha := by
  have hchild : ∀ mov, (node'.makeMove mov none).incheck = (node.makeMove mov none).incheck := by
    intro mov
    show (node'.board.makeMove mov).inCheck = (node.board.makeMove mov).inCheck
    rw [hf.board]
  unfold Starved skipped
  simp only [fprune_frame hf, hf.board, hf.incheck, hchild]

section Finish

variable {fs : Bool} {es : List Event} {node : Node} {depth alpha : Int}

/-- The events at the end of `search` tell whether its loop was starved. -/
theorem fed_finish : Fed fs (es ++ (.looped node depth alpha :: .wrote .hash node.tainted ::
    (historyEvents node ++ killerEvents node))) ↔
    Fed fs es ∧ (fs = true → ¬ Starved node depth alpha) := by
  rw [fed_append]
  refine and_congr_right fun _ => ⟨fun h => h _ List.mem_cons_self, fun h => ?_⟩
  exact List.forall_mem_cons.mpr ⟨h, (quiet_finish node).fed _⟩

omit [Build] in
theorem phantomless_finish : Phantomless fs (es ++ (.looped node depth alpha ::
    .wrote .hash node.tainted :: (historyEvents node ++ killerEvents node))) ↔
    Phantomless fs es := by
  refine phantomless_append.trans (and_iff_left ?_)
  exact List.forall_mem_cons.mpr ⟨trivial, (quiet_finish node).phantomless _⟩

end Finish

/-- Where no position ahead is a checkmate, a quiescence search that finds no legal move is not in
check. -/
theorem not_mated_quiesce (hword : Node.WordScored env.beyond) {n n' : Node}
    {history : PerColor HistoryTable} {ply : Nat} {beta alpha best : Int} {ls : MoveLoop} {s s' : Bool}
    {es : List Event} (hs : n.Sound) (hm : n.board.abs.MateFree)
    (hstart : ({ n with type := .quiesce } : Node).start env.beyond history = some n')
    (hloop : Runs env hashed (.loop (.quiesce ply beta) ⟨n', alpha, best, 0, true⟩) s es s'
      (.looped ls false)) : (decide (ls.moves = 0) && ls.node.incheck) = false := by
  have hstarted : n'.Sound := hs.started hstart (.refl _) ⟨rfl, rfl, rfl, rfl⟩ rfl
  have hframe : n.Frame n' := frame_started hstart (.refl _) ⟨rfl, rfl, rfl, rfl⟩
  have hq : ({ n with type := .quiesce } : Node).Sound := hs.congr ⟨rfl, rfl, rfl, rfl⟩ rfl
  rw [← Bool.not_eq_true, Bool.and_eq_true, decide_eq_true_iff]
  rintro ⟨hmoves, hcheck⟩
  have hwalk := hloop.walks trivial hstarted
    (hq.pickable_start (by decide : NodeType.quiesce ≠ .root) hword hstart)
  have hnone : ∀ mov ∈ n'.todo, (n'.board.makeMove mov).isLegal = false := hwalk.counted.mp hmoves
  have hincheck : n'.board.inCheck = true := by
    rw [← hstarted.incheck]
    exact hloop.frames.incheck.symm.trans hcheck
  refine Bool.false_ne_true ((hstarted.board.not_inCheck ?_ (fun _ => ?_) hnone).symm.trans hincheck)
  · rw [hframe.board]
    exact hm
  · have hcovers := hq.covers_escapes rfl
      (hframe.incheck.symm.trans (hstarted.incheck.trans hincheck))
    rw [Node.todo_start hstart]
    exact hcovers.congr hframe.board (.refl _)

theorem plain_quiesceCut (heval : ∀ t b alpha beta, |env.eval t b alpha beta| < mate)
    {n : Node} {node ply alpha beta s t} (hge : env.eval t n.board alpha beta ≥ beta) :
    s = false → Plain env.failsoft (.quiesceBody node ply alpha beta) []
      (.ret n ⟨if env.failsoft then env.eval t n.board alpha beta else beta, false⟩) := by
  intro _ hw _ _
  have hev := heval t n.board alpha beta
  show Mateless env.failsoft alpha beta (if env.failsoft then env.eval t n.board alpha beta else beta)
  cases hfs : env.failsoft with
  | true => exact hev
  | false =>
    rw [abs_lt] at hev
    exact ⟨Or.inl (by show beta < mate; omega), Or.inr rfl⟩

theorem plain_quiesceDone (hword : Node.WordScored env.beyond)
    (heval : ∀ t b alpha beta, |env.eval t b alpha beta| < mate)
    {n : Node} {node ply alpha beta s t history n' es s' ls}
    (hp : Probes env false node 0 alpha beta (n, none))
    (hlt : env.eval t n.board alpha beta < beta)
    (hstart : ({ n with type := .quiesce } : Node).start env.beyond history = some n')
    (hloop : Runs env false (.loop (.quiesce ply beta)
      ⟨n', max (env.eval t n.board alpha beta) alpha,
        if env.failsoft then env.eval t n.board alpha beta else -infty, 0, true⟩) s es s'
        (.looped ls false))
    (ih : s' = false → Plain env.failsoft (.loop (.quiesce ply beta)
      ⟨n', max (env.eval t n.board alpha beta) alpha,
        if env.failsoft then env.eval t n.board alpha beta else -infty, 0, true⟩) es (.looped ls false)) :
    s' = false → Plain env.failsoft (.quiesceBody node ply alpha beta)
      (es ++ [.wrote .hash ls.node.tainted]) (.ret ls.node ⟨quiesceScore env ply beta ls, false⟩) := by
  intro hs' hw hs hm
  obtain ⟨rfl, -⟩ := probes_unhashed hp
  have hstarted : n'.Sound := hs.started hstart (.refl _) ⟨rfl, rfl, rfl, rfl⟩ rfl
  have hframe : n.Frame n' := frame_started hstart (.refl _) ⟨rfl, rfl, rfl, rfl⟩
  obtain ⟨_, hground⟩ := ih hs' (hw.raise (le_max_right _ _) (max_lt hlt hw.lt)) hstarted
    (by rw [hframe.board]; exact hm)
  exact mateless_quiesceScore (not_mated_quiesce hword hs hm hstart hloop)
    (hground ((hloop.quiet trivial).phantomless _) _ _
      (grounded_quiesce env n' (heval t n.board alpha beta))) (heval t n.board alpha beta)

theorem plain_searchLeaf {node ply depth alpha beta s es s' n r}
    (hrun : Runs env false (.quiesce node ply alpha beta) s es s' (.ret n r))
    (ih : s' = false → Plain env.failsoft (.quiesce node ply alpha beta) es (.ret n r)) :
    s' = false → Plain env.failsoft (.searchBody node ply depth alpha beta) es (.ret n r) := by
  intro hs' hw hs hm _
  have hquiet := hrun.quiet trivial
  exact iff_of_true ⟨hquiet.phantomless _, ih hs' hw hs hm⟩ (hquiet.fed _)

theorem plain_searchDraw {node ply depth alpha beta s drawscore} (hdraw : node.isDraw = some drawscore) :
    s = false → Plain env.failsoft (.searchBody node ply depth alpha beta) []
      (.ret node ⟨if env.failsoft then drawscore else boundScore drawscore alpha beta, false⟩) := by
  intro _ hw _ _ _
  obtain rfl := isDraw_eq_draw hdraw
  refine iff_of_true ⟨quiet_nil.phantomless _, ?_⟩ (quiet_nil.fed _)
  cases hfs : env.failsoft with
  | true => exact (by decide : |(0 : Int)| < mate)
  | false => exact mateless_boundScore_draw hw

theorem plain_searchNull {node ply depth alpha beta n es s' score}
    (hp : Probes env false node depth alpha beta (n, none))
    (ih : s' = false → Plain env.failsoft (.null n ply depth beta) es (.cut (some score))) :
    s' = false → Plain env.failsoft (.searchBody node ply depth alpha beta) es (.ret n ⟨score, false⟩) := by
  intro hs' hw hs hm _
  obtain ⟨rfl, -⟩ := probes_unhashed hp
  obtain ⟨hiff, hcut⟩ := ih hs' hw.pass hs hm
  rw [← hiff]
  exact and_iff_left_of_imp fun h => hcut h _ rfl _

theorem plain_searchMain {node ply depth alpha beta n es₁ s₁ n₂ es₂ s₂ es₃ s₃ n₃ r} (hd : 0 < depth)
    (hp : Probes env false node depth alpha beta (n, none))
    (hdeepen : Runs env false (.deepen n ply depth alpha beta) s₁ es₂ s₂ (.node n₂))
    (hmoves : Runs env false (.moves n₂ ply depth alpha beta) s₂ es₃ s₃ (.ret n₃ r))
    (ih₁ : s₁ = false → Plain env.failsoft (.null n ply depth beta) es₁ (.cut none))
    (ih₂ : s₂ = false → Plain env.failsoft (.deepen n ply depth alpha beta) es₂ (.node n₂))
    (ih₃ : s₃ = false → Plain env.failsoft (.moves n₂ ply depth alpha beta) es₃ (.ret n₃ r)) :
    s₃ = false → Plain env.failsoft (.searchBody node ply depth alpha beta) (es₁ ++ (es₂ ++ es₃))
      (.ret n₃ r) := by
  intro hs' hw hs hm hc
  obtain ⟨rfl, -⟩ := probes_unhashed hp
  have hs₂ := hmoves.not_stopped hs'
  have hboard : n₂.board = n.board := hdeepen.frames.board
  obtain ⟨hiff₁, _⟩ := ih₁ (hdeepen.not_stopped hs₂) hw.pass hs hm
  have hiff₂ := ih₂ hs₂ hw hs hm (hc hd)
  have hiff₃ := ih₃ hs' hw (hdeepen.sound hs) (by rw [hboard]; exact hm)
    (hdeepen.made Node.makesLists_covers hs.board hs.incheck (hc hd))
  rw [phantomless_append, phantomless_append, fed_append, fed_append, hiff₁, hiff₂, ← hiff₃,
    and_assoc, and_assoc]

theorem plain_nullDone {node : Node} {ply depth beta slot es s' n r} (hcheck : node.incheck = false)
    (ih : s' = false → Plain env.failsoft (.search (node.makeMove .null slot) (ply + 1)
      (depth - 2 - 1) (-beta) (-beta + 1)) es (.ret n r)) :
    s' = false → Plain env.failsoft (.null node ply depth beta) es
      (.cut (if r.negate.score ≥ beta then some (if env.failsoft then r.negate.score else beta)
        else none)) := by
  intro hs' hw hs hm
  have hc := hs.incheck.symm.trans hcheck
  obtain ⟨hiff, hr⟩ := ih hs' hw (hs.makeNull hcheck _) (hs.board.mateFree_makeNull hm hc)
    fun _ => Or.inl rfl
  refine ⟨hiff, fun h v hv alpha => ?_⟩
  split at hv
  · rename_i hge
    rw [← Option.some.inj hv]
    exact mateless_cut hw (hr h) hge alpha
  · cases hv

theorem plain_movesDone (hword : Node.WordScored env.beyond) {node : Node}
    {ply depth alpha beta s history n es s' ls} {n' : Node}
    (hstart : ({ node with type := .fullwidth, historytable := some node.board.side } : Node).start
      env.beyond history = some n)
    (hloop : Runs env false (.loop (.search ply (mainDepth node depth alpha)
      (fprune node depth alpha) beta) ⟨n, alpha, -infty, 0, true⟩) s es s' (.looped ls false))
    (ih : s' = false → Plain env.failsoft (.loop
      (.search ply (mainDepth node depth alpha) (fprune node depth alpha) beta)
        ⟨n, alpha, -infty, 0, true⟩) es (.looped ls false)) :
    s' = false → Plain env.failsoft (.moves node ply depth alpha beta)
      (es ++ (.looped ls.node depth alpha :: .wrote .hash ls.node.tainted ::
        (historyEvents ls.node ++ killerEvents ls.node)))
      (.ret n' ⟨searchScore env ply beta ls, false⟩) := by
  intro hs' hw hs hm hc
  have hframe : node.Frame n := frame_started hstart (.refl _) ⟨rfl, rfl, rfl, rfl⟩
  have hstarted : n.Sound := hs.started hstart (.refl _) ⟨rfl, rfl, rfl, rfl⟩ rfl
  have hfull : ({ node with type := .fullwidth, historytable := some node.board.side } : Node).Sound :=
    hs.congr ⟨rfl, rfl, rfl, rfl⟩ rfl
  have hmate : n.board.abs.MateFree := by
    rw [hframe.board]
    exact hm
  obtain ⟨hiff, hground⟩ := ih hs' hw hstarted hmate
  have hwalk : Walk (fprune node depth alpha) ⟨n, alpha, -infty, 0, true⟩ n.todo ls :=
    hloop.walks trivial hstarted
      (hfull.pickable_start (by decide : NodeType.fullwidth ≠ .root) hword hstart)
  rw [← fprune_frame hframe] at hwalk
  have hc' : ({ node with type := .fullwidth, historytable := some node.board.side } : Node).Complete := hc
  have htodo := Node.todo_start hstart
  have hcovers : n.Covers n.todo := by
    rw [htodo]
    exact (hc'.startList hfull rfl).congr hframe.board (.refl _)
  have hlists : ∀ mov ∈ n.todo, n.board.Lists mov := by
    rw [htodo, hframe.board]
    exact hfull.lists_startList
  have hlast := fun h => mateless_searchScore_iff ply hw hstarted hmate hcovers hlists
    hloop.frames.toFrame hwalk (hground h _ _ (grounded_search env n alpha beta))
  rw [fed_finish, phantomless_finish, ← hiff, starved_frame hloop.frames.toFrame]
  exact and_congr_right hlast

theorem plain_loopNext {k ls s es₁ s₁ ls' es₂ s₂ ls'' aborted} (hpick : ls.node.pick.2 ≠ .noMove)
    (hvisit : Runs env false (.visit k { ls with node := ls.node.pick.1 } ls.node.pick.2) s es₁ s₁
      (.step (.next ls')))
    (hrest : Runs env false (.loop k ls') s₁ es₂ s₂ (.looped ls'' aborted))
    (ih₁ : s₁ = false → Plain env.failsoft (.visit k { ls with node := ls.node.pick.1 }
      ls.node.pick.2) es₁ (.step (.next ls')))
    (ih₂ : s₂ = false → Plain env.failsoft (.loop k ls') es₂ (.looped ls'' aborted)) :
    s₂ = false → Plain env.failsoft (.loop k ls) (es₁ ++ es₂) (.looped ls'' aborted) := by
  intro hs' hw hs hm
  obtain ⟨hsound, hlist, _⟩ := hs.visit hpick
  have hboard : ls.node.pick.1.board = ls.node.board := (Node.keeps_pick ls.node).board
  have hboard' : ls'.node.board = ls.node.pick.1.board := hvisit.frames.board
  have hm' : ls.node.pick.1.board.abs.MateFree := by
    rw [hboard]
    exact hm
  obtain ⟨hiff₁, hwin, hground₁⟩ := ih₁ (hrest.not_stopped hs') hw hsound hm' hlist
  obtain ⟨hiff₂, hground₂⟩ := ih₂ hs' (hwin ls' rfl) (hvisit.frames.keeps.sound hsound)
    (by rw [hboard']; exact hm')
  rw [phantomless_append, fed_append]
  exact ⟨and_congr hiff₁ hiff₂, fun h fs a hg => hground₂ h.2 fs a (hground₁ h.1 fs a hg)⟩

theorem plain_loopCut {k ls es s' ls'} (hpick : ls.node.pick.2 ≠ .noMove)
    (ih : s' = false → Plain env.failsoft (.visit k { ls with node := ls.node.pick.1 }
      ls.node.pick.2) es (.step (.cut ls'))) :
    s' = false → Plain env.failsoft (.loop k ls) es (.looped ls' false) := by
  intro hs' hw hs hm
  obtain ⟨hsound, hlist, _⟩ := hs.visit hpick
  obtain ⟨hiff, _, hground⟩ := ih hs' hw hsound (by rw [(Node.keeps_pick _).board]; exact hm) hlist
  exact ⟨hiff, hground⟩

theorem plain_visitCut {k} {ls ls' : MoveLoop} {mov slot line es s' n r}
    (hl : (ls.node.makeMove mov slot).board.isLegal = true) (hs₁ : s' = false)
    (hls : ls' = { ls.enter.taint r with node := k.note r.score (ls.enter.taint r).node })
    (ih : s' = false → Plain env.failsoft (.scout k
      { ls.node.makeMove mov slot with pvline := line } ls.alpha) es (.ret n r)) :
    false = false → Plain env.failsoft (.visit k ls mov) (es ++ ls'.takeEvents mov n r)
      (.step (.cut (ls'.take mov n r))) := by
  intro _ hw hs hm hlist
  obtain ⟨hiff, hr⟩ := ih hs₁ hw (hs.makeMove hlist slot hl line)
    (hs.board.mateFree_makeMove hm hlist hl) fun _ => Or.inl rfl
  subst hls
  rw [(quiet_takeEvents _ _ _ _).phantomless_iff, (quiet_takeEvents _ _ _ _).fed_iff]
  refine ⟨hiff, fun _ h => ?_, fun h fs a hg => hg.take hw.lt (hr h) _ mov n⟩
  cases h

theorem plain_visitNext {k} {ls ls' : MoveLoop} {mov slot line es s' n r}
    (hl : (ls.node.makeMove mov slot).board.isLegal = true) (hs₁ : s' = false) (hlt : r.score < k.beta)
    (hls : ls' = { ls.enter.taint r with node := k.note r.score (ls.enter.taint r).node })
    (ih : s' = false → Plain env.failsoft (.scout k
      { ls.node.makeMove mov slot with pvline := line } ls.alpha) es (.ret n r)) :
    false = false → Plain env.failsoft (.visit k ls mov) (es ++ ls'.takeEvents mov n r)
      (.step (.next (ls'.take mov n r))) := by
  intro _ hw hs hm hlist
  obtain ⟨hiff, hr⟩ := ih hs₁ hw (hs.makeMove hlist slot hl line)
    (hs.board.mateFree_makeMove hm hlist hl) fun _ => Or.inl rfl
  subst hls
  rw [(quiet_takeEvents _ _ _ _).phantomless_iff, (quiet_takeEvents _ _ _ _).fed_iff]
  refine ⟨hiff, fun _ h => ?_, fun h fs a hg => hg.take hw.lt (hr h) _ mov n⟩
  cases h
  exact hw.raise (le_take_alpha _ mov n r) (take_alpha_lt mov n hw.lt hlt)

theorem plain_scoutFull {k child alpha s es s' n r}
    (hrun : Runs env false (k.call child (-k.beta) (-alpha)) s es s' (.ret n r))
    (ih : s' = false → Plain env.failsoft (k.call child (-k.beta) (-alpha)) es (.ret n r)) :
    s' = false → Plain env.failsoft (.scout k child alpha) es (.ret n r.negate) := by
  intro hs' hw hs hm hc
  obtain ⟨hiff, hr⟩ := plain_call hrun (ih hs') hw.negated hs hm hc
  refine ⟨hiff, fun h => ?_⟩
  have hneg := (hr h).negate hw.negated
  rwa [neg_neg, neg_neg] at hneg

theorem plain_scoutNull {k child alpha s es s' n r}
    (hrun : Runs env false (k.call child (-alpha - 1) (-alpha)) s es s' (.ret n r))
    (hno : ¬ (r.negate.score > alpha ∧ r.negate.score < k.beta))
    (ih : s' = false → Plain env.failsoft (k.call child (-alpha - 1) (-alpha)) es (.ret n r)) :
    s' = false → Plain env.failsoft (.scout k child alpha) es (.ret n r.negate) := by
  intro hs' hw hs hm hc
  obtain ⟨hiff, hr⟩ := plain_call hrun (ih hs') hw.null hs hm hc
  refine ⟨hiff, fun h => ?_⟩
  have hneg := (hr h).negate hw.null
  have hsucc : -(-alpha - 1) = alpha + 1 := by omega
  rw [neg_neg, hsucc] at hneg
  exact hneg.widen hw.lt hno

theorem plain_scoutAgain {k child alpha s es₁ s₁ n₁ r₁ es₂ s₂ n₂ r₂}
    (hrun₁ : Runs env false (k.call child (-alpha - 1) (-alpha)) s es₁ s₁ (.ret n₁ r₁))
    (hrun₂ : Runs env false (k.call n₁ (-k.beta) (-alpha)) s₁ es₂ s₂ (.ret n₂ r₂))
    (ih₁ : s₁ = false → Plain env.failsoft (k.call child (-alpha - 1) (-alpha)) es₁ (.ret n₁ r₁))
    (ih₂ : s₂ = false → Plain env.failsoft (k.call n₁ (-k.beta) (-alpha)) es₂ (.ret n₂ r₂)) :
    s₂ = false → Plain env.failsoft (.scout k child alpha) (es₁ ++ es₂)
      (.ret n₂ ⟨r₂.negate.score, r₁.aborted || r₂.aborted⟩) := by
  intro hs' hw hs hm hc
  obtain ⟨hiff₁, _⟩ := plain_call hrun₁ (ih₁ (hrun₂.not_stopped hs')) hw.null hs hm hc
  have hboard : n₁.board = child.board := (frame_call hrun₁.frames).board
  obtain ⟨hiff₂, hr₂⟩ := plain_call hrun₂ (ih₂ hs') hw.negated (keepsSound_call hrun₁.sound hs)
    (by rw [hboard]; exact hm) (complete_call hrun₁ hs hc)
  rw [phantomless_append, fed_append]
  refine ⟨and_congr hiff₁ hiff₂, fun h => ?_⟩
  have hneg := (hr₂ h.2).negate hw.negated
  rwa [neg_neg, neg_neg] at hneg

/-- **Every run is mateless exactly as long as no loop is starved.** -/
theorem Runs.plain (hword : Node.WordScored env.beyond)
    (heval : ∀ t b alpha beta, |env.eval t b alpha beta| < mate) {task : Task} {s : Bool}
    {es : List Event} {s' : Bool} {res : Result} (h : Runs env false task s es s' res) :
    s' = false → Plain env.failsoft task es res := by
  have hnil : Phantomless env.failsoft [] ↔ Fed env.failsoft [] :=
    iff_of_true (quiet_nil.phantomless _) (quiet_nil.fed _)
  induction h with
  | quiesce _ ih => exact ih
  | quiesceHit hp => exact absurd (probes_unhashed hp).2 nofun
  | quiesceCut _ hge => exact plain_quiesceCut heval hge
  | quiesceLeaf => exact fun _ _ _ _ => mateless_of_abs_lt (heval _ _ _ _)
  | quiesceAbort _ _ _ _ hloop => exact fun hs' => absurd (hs'.symm.trans hloop.stays.2) Bool.false_ne_true
  | quiesceDone hp hlt _ hstart hloop ih => exact plain_quiesceDone hword heval hp hlt hstart hloop ih
  | search _ ih =>
    intro hs' hw hs hm hc
    exact ⟨returned_iff (ih hs' hw hs hm hc), fun hp => hp _ (List.mem_append_right _ List.mem_cons_self)⟩
  | searchLeaf _ hrun ih => exact plain_searchLeaf hrun ih
  | searchDraw _ hdraw => exact plain_searchDraw hdraw
  | searchHit _ hp => exact absurd (probes_unhashed hp).2 nofun
  | searchNull _ hp _ ih => exact plain_searchNull hp ih
  | searchMain hd hp _ hdeepen hmoves ih₁ ih₂ ih₃ => exact plain_searchMain hd hp hdeepen hmoves ih₁ ih₂ ih₃
  | nullSkip => exact fun _ _ _ _ => ⟨hnil, nofun⟩
  | nullDone hcheck _ ih => exact plain_nullDone hcheck ih
  | deepenSkip => exact fun _ _ _ _ _ => hnil
  | deepenDone _ _ ih => exact fun hs' hw hs hm hc => (ih hs' hw hs hm fun _ => hc).1
  | movesAbort _ hloop => exact fun hs' => absurd (hs'.symm.trans hloop.stays.2) Bool.false_ne_true
  | movesDone hstart hloop _ ih => exact plain_movesDone hword hstart hloop ih
  | rootAbort | rootDone => exact fun _ => trivial
  | loopEnd => exact fun _ _ _ _ => ⟨hnil, fun _ _ _ hg => hg⟩
  | loopNext hpick hvisit hrest ih₁ ih₂ => exact plain_loopNext hpick hvisit hrest ih₁ ih₂
  | loopCut hpick _ ih => exact plain_loopCut hpick ih
  | loopAbort hpick hvisit => exact fun hs' => absurd (hs'.symm.trans hvisit.stays.2) Bool.false_ne_true
  | illegal | skipped =>
    intro _ hw _ _ _
    refine ⟨hnil, fun _ h => ?_, fun _ _ _ hg => hg⟩
    cases h
    exact hw
  | late _ ih => exact ih
  | visitAbort => exact nofun
  | visitCut hl _ _ hs₁ _ hls ih => exact plain_visitCut hl hs₁ hls ih
  | visitNext hl _ _ hs₁ hlt hls ih => exact plain_visitNext hl hs₁ hlt hls ih
  | scoutFull hrun ih => exact plain_scoutFull hrun ih
  | scoutNull hrun hno ih => exact plain_scoutNull hrun hno ih
  | scoutAgain hrun₁ _ _ hrun₂ ih₁ ih₂ => exact plain_scoutAgain hrun₁ hrun₂ ih₁ ih₂

end Runs

/-! ## A wall of pawns -/

/-- Three pawns of each side that block each other. -/
def wall : Color → List Square
  | .white => [25, 28, 30]
  | .black => [33, 36, 38]

/-- The ranks behind the wall that the enemy pawns do not attack. -/
def camp : Color → Square → Bool
  | .white, sq => rnk sq < 3
  | .black, sq => 4 < rnk sq

/-- What may stand on a square. -/
def lockedAt (sq : Square) : Option Man → Bool
  | none => true
  | some (c, .pawn) => sq ∈ wall c
  | some (c, .king) => camp c sq
  | some _ => false

/-- Apart from the wall there are only kings, each in its camp. -/
structure Locked (pos : Position) : Prop where
  men : ∀ sq, lockedAt sq (pos.man sq) = true
  pawns : ∀ c, ∀ sq ∈ wall c, pos.man sq = some (c, .pawn)
  rights : ∀ f, pos.right f = false
  ep : pos.ep = none

/-- What a pawn or a king attacks does not depend on the other men. -/
def leaps (c : Color) (p : Piece) (src : Square) : List Square := reach (fun _ => none) c p src

/-- The squares that the pawns of the wall attack. -/
theorem leaps_wall : ∀ c, ∀ src ∈ wall c, ∀ dst ∈ leaps c .pawn src,
    dst ∉ wall c.xside ∧ camp c.xside dst = false := by
  decide

/-- The pawns of the wall face each other. -/
theorem step_wall : ∀ c, ∀ src ∈ wall c, ∃ dst ∈ wall c.xside, Grid.step src (forward c) = some dst := by
  decide +kernel

/-- A king that leaves its camp steps on its own wall, or is attacked by the other one. -/
theorem leaps_camp : ∀ c src, camp c src = true → ∀ dst ∈ leaps c .king src,
    dst ∉ wall c.xside ∧ camp c.xside dst = false ∧
      (camp c dst = true ∨ dst ∈ wall c ∨ ∃ s ∈ wall c.xside, dst ∈ leaps c.xside .pawn s) := by
  decide +kernel

theorem camp_not_wall : ∀ c d src, camp c src = true → src ∉ wall d := by
  decide +kernel

namespace Locked

variable {pos : Position}

theorem cases_man (h : Locked pos) {sq : Square} {c : Color} {p : Piece} (hman : pos.man sq = some (c, p)) :
    (p = .pawn ∧ sq ∈ wall c) ∨ (p = .king ∧ camp c sq = true) := by
  have hmen := h.men sq
  rw [hman] at hmen
  cases p with
  | pawn => exact Or.inl ⟨rfl, of_decide_eq_true hmen⟩
  | king => exact Or.inr ⟨rfl, hmen⟩
  | _ => exact absurd hmen Bool.false_ne_true

/-- Nobody is ever in check. -/
theorem not_inCheck (h : Locked pos) : ¬ pos.InCheck := by
  rintro ⟨king, hking, src, p, hsrc, hreach⟩
  have hcamp : camp pos.side king = true :=
    ((h.cases_man hking).resolve_left fun e => by cases e.1).2
  rcases h.cases_man hsrc with ⟨rfl, hwall⟩ | ⟨rfl, hhome⟩
  · have hout := (leaps_wall _ _ hwall king hreach).2
    rw [xside_xside, hcamp] at hout
    cases hout
  · have hout := (leaps_camp _ _ hhome king hreach).2.1
    rw [xside_xside, hcamp] at hout
    cases hout

/-- The pawns cannot move. -/
theorem not_carries_pawn (h : Locked pos) (src dst : Square) (cap : Option Piece) :
    ¬ pos.Carries src dst .pawn cap := by
  rintro ⟨hsrc, hdst, htarget⟩
  have hwall : src ∈ wall pos.side := ((h.cases_man hsrc).resolve_right fun e => by cases e.1).2
  cases cap with
  | none =>
    obtain ⟨front, hfront, hstep⟩ := step_wall _ _ hwall
    have htarget : dst ∈ pushes pos.man pos.side src := htarget
    unfold pushes at htarget
    simp only [hstep, occupied, h.pawns _ _ hfront, Option.isSome_some, if_true] at htarget
    cases htarget
  | some q =>
    have htarget : dst ∈ leaps pos.side .pawn src := htarget
    obtain ⟨hnot, hout⟩ := leaps_wall _ _ hwall dst htarget
    rcases h.cases_man hdst with ⟨_, hin⟩ | ⟨_, hin⟩
    · exact hnot hin
    · rw [hout] at hin
      cases hin

/-- A legal move is a step of a king in its camp. -/
theorem cases_legal (h : Locked pos) {ply : Ply} (hl : pos.Legal ply) : ∃ src dst,
    ply = .move src dst .king none ∧ camp pos.side src = true ∧ camp pos.side dst = true := by
  obtain ⟨hp, hsafe⟩ := hl
  cases ply with
  | castle f =>
    have hright : pos.right f = true := hp.2.1
    rw [h.rights] at hright
    cases hright
  | enpassant src dst =>
    have hep : pos.ep = some dst := hp.2.1
    rw [h.ep] at hep
    cases hep
  | promote src dst p cap => exact absurd hp.1 (h.not_carries_pawn src dst cap)
  | move src dst p cap =>
    have hcarries : pos.Carries src dst p cap := hp.1
    rcases h.cases_man hcarries.1 with ⟨rfl, _⟩ | ⟨rfl, hsrc⟩
    · exact absurd hcarries (h.not_carries_pawn src dst cap)
    have htarget : dst ∈ leaps pos.side .king src := hcarries.2.2
    obtain ⟨hnot, hout, hstay⟩ := leaps_camp _ _ hsrc dst htarget
    have hdst : pos.man dst = cap.map (fun q => (pos.side.xside, q)) := hcarries.2.1
    cases cap with
    | some q =>
      rcases h.cases_man hdst with ⟨_, hin⟩ | ⟨_, hin⟩
      · exact absurd hin hnot
      · exact absurd (hout.symm.trans hin) Bool.false_ne_true
    | none =>
      refine ⟨src, dst, rfl, hsrc, ?_⟩
      rcases hstay with hstay | hin | ⟨s, hs, hattack⟩
      · exact hstay
      · exact absurd ((h.pawns _ _ hin).symm.trans hdst) nofun
      · have hpawn : pos.man s = some (pos.side.xside, .pawn) := h.pawns _ _ hs
        have hsd : s ≠ dst := by
          rintro rfl
          exact hnot hs
        have hss : s ≠ src := by
          rintro rfl
          exact camp_not_wall _ _ _ hsrc hs
        refine absurd ?_ (hsafe dst ?_)
        · refine ⟨s, .pawn, ?_, hattack⟩
          show Function.update (Function.update pos.man src none) dst _ s = _
          rw [Function.update_of_ne hsd, Function.update_of_ne hss]
          exact hpawn
        · show Function.update (Function.update pos.man src none) dst _ dst = _
          rw [Function.update_self]
          exact congrArg (fun c => some (c, Piece.king)) (xside_xside pos.side).symm

theorem apply (h : Locked pos) {ply : Ply} (hl : pos.Legal ply) : Locked (pos.apply ply) := by
  obtain ⟨src, dst, rfl, hsrc, hdst⟩ := h.cases_legal hl
  have hman : (pos.apply (.move src dst .king none)).man =
    Function.update (Function.update pos.man src none) dst (some (pos.side, .king)) := rfl
  refine ⟨fun sq => ?_, fun c sq hsq => ?_, fun f => ?_, rfl⟩
  · rw [hman]
    rcases eq_or_ne sq dst with rfl | hd
    · rw [Function.update_self]
      exact hdst
    rw [Function.update_of_ne hd]
    rcases eq_or_ne sq src with rfl | hs
    · rw [Function.update_self]
      rfl
    rw [Function.update_of_ne hs]
    exact h.men sq
  · have hd : sq ≠ dst := by
      rintro rfl
      exact camp_not_wall _ c _ hdst hsq
    have hs : sq ≠ src := by
      rintro rfl
      exact camp_not_wall _ c _ hsrc hsq
    rw [hman, Function.update_of_ne hd, Function.update_of_ne hs]
    exact h.pawns c sq hsq
  · show (pos.right f && _ && _) = false
    rw [h.rights]
    rfl

theorem pass (h : Locked pos) : Locked pos.pass := ⟨h.men, h.pawns, h.rights, rfl⟩

end Locked

end Search

end HoiChess
