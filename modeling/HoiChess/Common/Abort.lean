import HoiChess.Common.Iteration
import HoiChess.Common.SoundNode
import HoiChess.Common.Calls

/-!
# Aborting the search

Wherever the stop flag rises, nothing is written on account of a child whose search was
aborted, and nothing is stored for its node (`call_clean`, `iterate_clean`).  The delicate
case is internal iterative deepening, whose result is not looked at: if a child was aborted
there, the same child is up for search in the loop that follows, which then aborts as well.
-/

namespace HoiChess

open Chess Rules Exec

namespace Search

/-- Nothing was written because of an aborted child or for a node with an aborted child, and
no iteration was adopted after a stop. -/
def Clean (es : List Event) : Prop :=
  ∀ e ∈ es, match e with
    | .wrote _ aborted => aborted = false
    | .adopted stopped => stopped = false
    | _ => True

section Events

variable {es es' : List Event}

theorem clean_nil : Clean [] := List.forall_mem_nil _

theorem Clean.append (h : Clean es) (h' : Clean es') : Clean (es ++ es') :=
  List.forall_mem_append.mpr ⟨h, h'⟩

theorem clean_takeEvents {ls : MoveLoop} {mov : Move} {child : Node} {r : Ret}
    (h : r.aborted = false) : Clean (ls.takeEvents mov child r) := by
  intro e he
  rcases MoveLoop.mem_takeEvents he with ⟨_, rfl | rfl⟩ | rfl
  · exact h
  · trivial
  · exact h

theorem clean_historyEvents {node : Node} (h : node.tainted = false) : Clean (historyEvents node) := by
  intro e he
  rw [mem_historyEvents he]
  exact h

theorem clean_finish {ls : MoveLoop} (h : ls.node.tainted = false) (depth alpha : Int) :
    Clean (.looped ls.node depth alpha :: .wrote .hash ls.node.tainted ::
      (historyEvents ls.node ++ killerEvents ls.node)) := by
  refine List.forall_mem_cons.mpr ⟨trivial, List.forall_mem_cons.mpr ⟨h, ?_⟩⟩
  refine (clean_historyEvents h).append fun e he => ?_
  rw [mem_killerEvents he]
  exact h

end Events

section Moves

variable [Build] {node node' : Node} {fp : Bool}

/-- The move is legal, and pruning does not skip it. -/
def Searched (fp : Bool) (node : Node) (mov : Move) : Prop :=
  (node.board.makeMove mov).isLegal = true ∧ skipped fp node (node.makeMove mov none) mov = false

/-- The list holds a move that would be searched. -/
def Blocked (fp : Bool) (node : Node) : Prop := ∃ mov ∈ node.movelist.moves, Searched fp node mov

/-- Such a move is still to be picked. -/
def Pending (fp : Bool) (node : Node) : Prop :=
  ∃ e ∈ node.remaining, -infty < e.2 ∧ Searched fp node e.1

theorem Searched.frame {mov : Move} (hf : node.Frame node') (h : Searched fp node mov) :
    Searched fp node' mov := by
  unfold Searched skipped at h ⊢
  have hchild : (node'.makeMove mov none).incheck = (node.makeMove mov none).incheck := by
    show (node'.board.makeMove mov).inCheck = (node.board.makeMove mov).inCheck
    rw [hf.board]
  rw [hf.board, hf.incheck, hchild]
  exact h

theorem Blocked.keeps (hk : node.Keeps node') (h : Blocked fp node) : Blocked fp node' := by
  obtain ⟨mov, hmem, hs⟩ := h
  exact ⟨mov, hk.moves.mem_iff.mpr hmem, hs.frame hk.toFrame⟩

/-- Where less is pruned, more is searched. -/
theorem Blocked.mono {fp' : Bool} (hle : fp' = true → fp = true) (h : Blocked fp node) :
    Blocked fp' node := by
  obtain ⟨mov, hmem, hl, hs⟩ := h
  refine ⟨mov, hmem, hl, ?_⟩
  cases fp' with
  | false => rfl
  | true =>
    rw [hle rfl] at hs
    exact hs

theorem Pending.pick (h : Pending fp node) (hpick : node.pick.2 ≠ .noMove) :
    Searched fp node.pick.1 node.pick.2 ∨ Pending fp node.pick.1 := by
  obtain ⟨e, hmem, hscore, hs⟩ := h
  obtain ⟨s, hperm⟩ := Node.remaining_pick hpick
  have hf := (Node.keeps_pick node).toFrame
  rcases List.mem_cons.mp (hperm.mem_iff.mp hmem) with rfl | hmem
  · exact Or.inl (hs.frame hf)
  · exact Or.inr ⟨e, hmem, hscore, hs.frame hf⟩

/-- As long as such a move is to be picked, picking goes on. -/
theorem Pending.pick_ne (h : Pending fp node) (hsound : node.Sound) : node.pick.2 ≠ .noMove := by
  intro hpick
  obtain ⟨e, hmem, hscore, _⟩ := h
  exact absurd hscore (not_lt.mpr ((Node.pick_noMove (fun _ => hsound.proper) hpick).2 e hmem))

theorem Blocked.start {beyond : BitVec 32} {history : PerColor HistoryTable} (h : Blocked fp node)
    (hsound : node.Sound) (htype : node.type = .fullwidth) (hword : Node.WordScored beyond)
    (hstart : node.start beyond history = some node') : Pending fp node' := by
  obtain ⟨mov, hmem, hs⟩ := h
  have hsize : node.movelist.size ≠ 0 := by
    show node.movelist.entries.length ≠ 0
    rw [← Movelist.length_moves]
    exact (List.length_pos_of_mem hmem).ne'
  have hlist : node.startList = node.movelist := by
    simp only [Node.startList, htype, if_pos hsize]
  have htodo := Node.todo_start hstart
  rw [hlist] at htodo
  rw [← htodo] at hmem
  obtain ⟨e, he, rfl⟩ := List.mem_map.mp hmem
  have hne : node.type ≠ .root := by rw [htype]; decide
  exact ⟨e, he, hsound.scored_start hne hword hstart e (List.mem_of_mem_drop he),
    hs.frame (Node.frame_start hstart)⟩

end Moves

theorem fprune_frame {node node' : Node} (hf : node.Frame node') (depth alpha : Int) :
    fprune node' depth alpha = fprune node depth alpha := by
  unfold fprune razorDepth marginBelow
  rw [hf.material]

/-- Whatever is pruned after deepening was pruned while deepening. -/
theorem fprune_deepen {node : Node} {depth alpha : Int} (hd : 2 < depth)
    (h : fprune node depth alpha = true) : fprune node (depth - 2) alpha = true := by
  unfold fprune razorDepth marginBelow at *
  grind

/-- The score of an aborted child is below every window. -/
theorem negate_aborted_le {r : Ret} {alpha : Int} (h : r.score = intMin) (ha : intMin < alpha) :
    r.negate.score ≤ alpha := by
  show (if r.score = intMin then intMin else -r.score) ≤ alpha
  rw [if_pos h]
  exact ha.le

/-- After the use of a score the node remembers whether the child was aborted. -/
theorem tainted_visit (k : LoopKind) (ls : MoveLoop) (mov : Move) (child : Node) (r : Ret) :
    (({ ls.enter.taint r with node := k.note r.score (ls.enter.taint r).node } : MoveLoop).take
      mov child r).node.tainted = (ls.node.tainted || r.aborted) := by
  unfold MoveLoop.take
  simp only
  split <;> cases k <;> rfl

theorem untainted_visit {ls : MoveLoop} {r : Ret} {s' : Bool} (hs : s' = false)
    (ht : ls.node.tainted = true → s' = true) (hr : r.aborted = true → s' = true) :
    ls.node.tainted = false ∧ r.aborted = false := by
  subst hs
  exact ⟨Bool.not_eq_true _ ▸ fun e => Bool.false_ne_true (ht e),
    Bool.not_eq_true _ ▸ fun e => Bool.false_ne_true (hr e)⟩

/-- What every result of a call has in common: the trace is clean, the flag stays, and only
aborted calls leave a node with an aborted child. -/
structure Orderly (s : Bool) (es : List Event) (s' : Bool) (n : Node) (r : Ret) : Prop where
  clean : Clean es
  stays : s = true → s' = true
  aborted : r.aborted = true → s' = true ∧ r.score = intMin
  tainted : n.tainted = true → r.aborted = true

theorem Orderly.untainted {s s' : Bool} {es : List Event} {n : Node} {r : Ret}
    (h : Orderly s es s' n r) (hs : s' = false) : n.tainted = false := by
  by_contra hn
  exact Bool.false_ne_true (hs.symm.trans (h.aborted (h.tainted (Bool.not_eq_false _ ▸ hn))).1)

theorem orderly_pure {s : Bool} {es : List Event} {n : Node} {v : Int} (hclean : Clean es)
    (hn : n.tainted = false) : Orderly s es s n ⟨v, false⟩ :=
  ⟨hclean, id, nofun, fun h => absurd (hn.symm.trans h) Bool.false_ne_true⟩

section Decide

variable {node : Node} {best : Move} {score alpha beta : Int} {s : Bool} {es : List Event} {d : Decision}

theorem Decides.clean (h : Decides node best score alpha beta s es d) (hs : s = false) : Clean es := by
  cases h with
  | low | high | failed => exact clean_nil
  | done | deeper => exact List.forall_mem_singleton.mpr hs

theorem Decides.again_window {a b : Int} (h : Decides node best score alpha beta s es (.again a b))
    (hw : IntWindow alpha beta) : IntWindow a b := by
  have hlt := hw.lt
  have hmate : mate = 90000 := rfl
  have hinfty : infty = 100000 := rfl
  cases h with
  | low h1 h2 => exact ⟨by omega, by decide, hw.lt_neg_intMin⟩
  | high h1 h2 => exact ⟨by omega, hw.intMin_lt, by decide⟩

theorem Decides.deeper_window {best' : Move} {a b : Int}
    (h : Decides node best score alpha beta s es (.deeper best' a b)) : IntWindow a b := by
  have hmate : mate = 90000 := rfl
  have hwindow : window = 50 := rfl
  have hmin : intMin = -2147483648 := rfl
  cases h with
  | deeper h1 h2 => exact ⟨by omega, by omega, by omega⟩

end Decide

section Runs

variable [Build] {env : SearchEnv} {hashed : Bool}

/-- What a run of each task keeps. -/
def Unspoilt : Task → Bool → List Event → Bool → Result → Prop
  | .quiesce node _ alpha beta, s, es, s', .ret n r
  | .quiesceBody node _ alpha beta, s, es, s', .ret n r => IntWindow alpha beta → node.Sound →
    node.tainted = false → Orderly s es s' n r
  | .search node _ depth alpha beta, s, es, s', .ret n r
  | .searchBody node _ depth alpha beta, s, es, s', .ret n r => IntWindow alpha beta → node.Sound →
    node.tainted = false →
    Orderly s es s' n r ∧ (0 < depth → n.tainted = true → Blocked (fprune node depth alpha) n)
  | .moves node _ depth alpha beta, s, es, s', .ret n r => IntWindow alpha beta → node.Sound →
    (node.tainted = true → s = true ∧ Blocked (fprune node depth alpha) node) →
    Orderly s es s' n r ∧ (r.aborted = true → Blocked (fprune node depth alpha) n)
  | .null node _ _ beta, s, es, s', .cut _ => IntWindow (-beta) (-beta + 1) → node.Sound →
    Clean es ∧ (s = true → s' = true)
  | .deepen node _ depth alpha beta, s, es, s', .node n => IntWindow alpha beta → node.Sound →
    node.tainted = false → Clean es ∧ (s = true → s' = true) ∧
      (n.tainted = true → s' = true ∧ Blocked (fprune node depth alpha) n)
  | .root node _ alpha beta, s, es, s', .ret n r => IntWindow alpha beta → node.Sound →
    node.tainted = false → Orderly s es s' n r
  | .loop k ls, s, es, s', .looped ls' aborted => IntWindow ls.alpha k.beta → ls.node.Sound →
    (ls.node.tainted = true → s = true ∧ Pending k.fprune ls.node) →
    Clean es ∧ (s = true → s' = true) ∧
      (aborted = true → s' = true ∧ Blocked k.fprune ls'.node) ∧
      (aborted = false → ls'.node.tainted = false)
  | .visit k ls mov, s, es, s', .step st => IntWindow ls.alpha k.beta → ls.node.Sound →
    ls.node.board.Lists mov → mov ∈ ls.node.movelist.moves →
    (ls.node.tainted = true → s = true ∧ (Searched k.fprune ls.node mov ∨ Pending k.fprune ls.node)) →
    Clean es ∧ (s = true → s' = true) ∧
      match st with
      | .next ls' => IntWindow ls'.alpha k.beta ∧
        (ls'.node.tainted = true → s' = true ∧ Pending k.fprune ls'.node)
      | .cut ls' => ls'.node.tainted = false
      | .abort ls' => s' = true ∧ Blocked k.fprune ls'.node
  | .scout k child alpha, s, es, s', .ret _ r => IntWindow alpha k.beta → child.Sound →
    child.tainted = false → Clean es ∧ (s = true → s' = true) ∧ (r.aborted = true → s' = true)
  | _, _, _, _, _ => True

theorem unspoilt_call {k : LoopKind} {child n : Node} {a b : Int} {s s' : Bool} {es : List Event}
    {r : Ret} (h : Unspoilt (k.call child a b) s es s' (.ret n r)) (hw : IntWindow a b)
    (hs : child.Sound) (ht : child.tainted = false) : Orderly s es s' n r := by
  cases k with
  | quiesce => exact h hw hs ht
  | search => exact (h hw hs ht).1
  | root => exact (h hw hs ht).1

theorem untainted_start {node n : Node} {history : PerColor HistoryTable}
    (hstart : node.start env.beyond history = some n) (h : node.tainted = false) : n.tainted ≠ true := by
  rw [(Node.results_start hstart).1, h]
  exact Bool.false_ne_true

/-- Where deepening was aborted, the loop that follows has a move to search. -/
theorem pending_start {node n : Node} {s : Bool} {depth alpha : Int} {history : PerColor HistoryTable}
    (hword : Node.WordScored env.beyond) (hs : node.Sound)
    (hstart : ({ node with type := .fullwidth, historytable := some node.board.side } : Node).start
      env.beyond history = some n)
    (h : node.tainted = true → s = true ∧ Blocked (fprune node depth alpha) node) :
    n.tainted = true → s = true ∧ Pending (fprune node depth alpha) n := by
  intro ht
  obtain ⟨hstop, hb⟩ := h ((Node.results_start hstart).1.symm.trans ht)
  have hb : Blocked (fprune node depth alpha)
    { node with type := .fullwidth, historytable := some node.board.side } := hb
  exact ⟨hstop, hb.start (hs.congr ⟨rfl, rfl, rfl, rfl⟩ rfl) rfl hword hstart⟩

theorem pending_pick {fp : Bool} {node : Node} {s : Bool} (hpick : node.pick.2 ≠ .noMove)
    (h : node.tainted = true → s = true ∧ Pending fp node) :
    node.pick.1.tainted = true → s = true ∧
      (Searched fp node.pick.1 node.pick.2 ∨ Pending fp node.pick.1) := by
  intro ht
  obtain ⟨hs, hp⟩ := h (node.results_pick.1.symm.trans ht)
  exact ⟨hs, hp.pick hpick⟩

theorem unspoilt_quiesce {node ply alpha beta s es s' n r}
    (ih : Unspoilt (.quiesceBody node ply alpha beta) s es s' (.ret n r)) :
    Unspoilt (.quiesce node ply alpha beta) s (es ++ [.returned .quiesce alpha beta r s']) s' (.ret n r) := by
  intro hw hs ht
  have h := ih hw hs ht
  exact ⟨h.clean.append (List.forall_mem_singleton.mpr trivial), h.stays, h.aborted, h.tainted⟩

theorem unspoilt_search {node ply depth alpha beta s es s' n r}
    (ih : Unspoilt (.searchBody node ply depth alpha beta) s es s' (.ret n r)) :
    Unspoilt (.search node ply depth alpha beta) s (es ++ [.returned .search alpha beta r s']) s'
      (.ret n r) := by
  intro hw hs ht
  obtain ⟨h, hb⟩ := ih hw hs ht
  exact ⟨⟨h.clean.append (List.forall_mem_singleton.mpr trivial), h.stays, h.aborted, h.tainted⟩, hb⟩

theorem unspoilt_quiesceAbort {n : Node} {node ply alpha beta s t history n' es s' ls}
    (hp : Probes env hashed node 0 alpha beta (n, none)) (hlt : env.eval t n.board alpha beta < beta)
    (hstart : ({ n with type := .quiesce } : Node).start env.beyond history = some n')
    (ih : Unspoilt (.loop (.quiesce ply beta) ⟨n', max (env.eval t n.board alpha beta) alpha,
      if env.failsoft then env.eval t n.board alpha beta else -infty, 0, true⟩) s es s'
        (.looped ls true)) :
    Unspoilt (.quiesceBody node ply alpha beta) s es s' (.ret ls.node .abort) := by
  intro hw hs ht
  obtain ⟨hclean, hstays, habort, _⟩ := ih (hw.raise (le_max_right _ _) (max_lt hlt hw.lt))
    ((sound_probes hp hs).started hstart (.refl _) ⟨rfl, rfl, rfl, rfl⟩ rfl)
    (fun h => absurd h (untainted_start hstart ((frame_probes hp).2.2.1.trans ht)))
  exact ⟨hclean, hstays, fun _ => ⟨(habort rfl).1, rfl⟩, fun _ => rfl⟩

theorem unspoilt_quiesceDone {n : Node} {node ply alpha beta s t history n' es s' ls}
    (hp : Probes env hashed node 0 alpha beta (n, none)) (hlt : env.eval t n.board alpha beta < beta)
    (hstart : ({ n with type := .quiesce } : Node).start env.beyond history = some n')
    (ih : Unspoilt (.loop (.quiesce ply beta) ⟨n', max (env.eval t n.board alpha beta) alpha,
      if env.failsoft then env.eval t n.board alpha beta else -infty, 0, true⟩) s es s'
        (.looped ls false)) :
    Unspoilt (.quiesceBody node ply alpha beta) s (es ++ [.wrote .hash ls.node.tainted]) s'
      (.ret ls.node ⟨quiesceScore env ply beta ls, false⟩) := by
  intro hw hs ht
  obtain ⟨hclean, hstays, _, hdone⟩ := ih (hw.raise (le_max_right _ _) (max_lt hlt hw.lt))
    ((sound_probes hp hs).started hstart (.refl _) ⟨rfl, rfl, rfl, rfl⟩ rfl)
    (fun h => absurd h (untainted_start hstart ((frame_probes hp).2.2.1.trans ht)))
  have hn := hdone rfl
  exact ⟨hclean.append (List.forall_mem_singleton.mpr hn), hstays, nofun,
    fun h => absurd (hn.symm.trans h) Bool.false_ne_true⟩

theorem unspoilt_searchHit {node ply depth alpha beta s n score}
    (hp : Probes env hashed node depth alpha beta (n, some score)) :
    Unspoilt (.searchBody node ply depth alpha beta) s [] s (.ret n ⟨score, false⟩) := by
  intro _ _ ht
  have hn := (frame_probes hp).2.2.1.trans ht
  exact ⟨orderly_pure clean_nil hn, fun _ h => absurd (hn.symm.trans h) Bool.false_ne_true⟩

theorem unspoilt_searchNull {node ply depth alpha beta s n es s' score}
    (hp : Probes env hashed node depth alpha beta (n, none))
    (ih : Unspoilt (.null n ply depth beta) s es s' (.cut (some score))) :
    Unspoilt (.searchBody node ply depth alpha beta) s es s' (.ret n ⟨score, false⟩) := by
  intro hw hs ht
  have hn := (frame_probes hp).2.2.1.trans ht
  obtain ⟨hclean, hstays⟩ := ih hw.pass (sound_probes hp hs)
  exact ⟨⟨hclean, hstays, nofun, fun h => absurd (hn.symm.trans h) Bool.false_ne_true⟩,
    fun _ h => absurd (hn.symm.trans h) Bool.false_ne_true⟩

theorem unspoilt_searchMain {node ply depth alpha beta s n es₁ s₁ n₂ es₂ s₂ es₃ s₃ n₃ r}
    (hp : Probes env hashed node depth alpha beta (n, none))
    (hdeepen : Runs env hashed (.deepen n ply depth alpha beta) s₁ es₂ s₂ (.node n₂))
    (ih₁ : Unspoilt (.null n ply depth beta) s es₁ s₁ (.cut none))
    (ih₂ : Unspoilt (.deepen n ply depth alpha beta) s₁ es₂ s₂ (.node n₂))
    (ih₃ : Unspoilt (.moves n₂ ply depth alpha beta) s₂ es₃ s₃ (.ret n₃ r)) :
    Unspoilt (.searchBody node ply depth alpha beta) s (es₁ ++ (es₂ ++ es₃)) s₃ (.ret n₃ r) := by
  intro hw hs ht
  have hn := sound_probes hp hs
  obtain ⟨hclean₁, hstays₁⟩ := ih₁ hw.pass hn
  obtain ⟨hclean₂, hstays₂, htaint⟩ := ih₂ hw hn ((frame_probes hp).2.2.1.trans ht)
  have hf : fprune n₂ depth alpha = fprune n depth alpha := fprune_frame hdeepen.frames depth alpha
  have hf' : fprune n depth alpha = fprune node depth alpha := fprune_frame (frame_probes hp).1 depth alpha
  obtain ⟨h, hblocked⟩ := ih₃ hw (hdeepen.sound hn) (by rw [hf]; exact htaint)
  refine ⟨⟨hclean₁.append (hclean₂.append h.clean), fun e => h.stays (hstays₂ (hstays₁ e)),
    h.aborted, h.tainted⟩, fun _ e => ?_⟩
  rw [← hf', ← hf]
  exact hblocked (h.tainted e)

theorem unspoilt_nullDone {node : Node} {ply depth beta s slot es s' n r} (hc : node.incheck = false)
    (ih : Unspoilt (.search (node.makeMove .null slot) (ply + 1) (depth - 2 - 1) (-beta)
      (-beta + 1)) s es s' (.ret n r)) :
    Unspoilt (.null node ply depth beta) s es s'
      (.cut (if r.negate.score ≥ beta then some (if env.failsoft then r.negate.score else beta)
        else none)) := by
  intro hw hs
  obtain ⟨h, _⟩ := ih hw (hs.makeNull hc _) rfl
  exact ⟨h.clean, h.stays⟩

theorem unspoilt_deepenDone {node ply depth alpha beta s es s' n r} (hd : 2 < depth)
    (ih : Unspoilt (.search node ply (depth - 2) alpha beta) s es s' (.ret n r)) :
    Unspoilt (.deepen node ply depth alpha beta) s es s' (.node { n with hashmv := n.getBestMove }) := by
  intro hw hs ht
  obtain ⟨h, hblocked⟩ := ih hw hs ht
  refine ⟨h.clean, h.stays, fun e => ⟨(h.aborted (h.tainted e)).1, ?_⟩⟩
  have hb := hblocked (by omega) e
  exact (hb.mono (fprune_deepen hd)).keeps ⟨⟨rfl, rfl, rfl, rfl⟩, rfl, .refl _⟩

theorem unspoilt_movesAbort (hword : Node.WordScored env.beyond) {node : Node}
    {ply depth alpha beta s history n es s' ls}
    (hstart : ({ node with type := .fullwidth, historytable := some node.board.side } : Node).start
      env.beyond history = some n)
    (ih : Unspoilt (.loop (.search ply (mainDepth node depth alpha) (fprune node depth alpha) beta)
      ⟨n, alpha, -infty, 0, true⟩) s es s' (.looped ls true)) :
    Unspoilt (.moves node ply depth alpha beta) s es s' (.ret ls.node .abort) := by
  intro hw hs ht
  have hn : n.Sound := hs.started hstart (.refl _) ⟨rfl, rfl, rfl, rfl⟩ rfl
  obtain ⟨hclean, hstays, habort, _⟩ := ih hw hn (pending_start hword hs hstart ht)
  exact ⟨⟨hclean, hstays, fun _ => ⟨(habort rfl).1, rfl⟩, fun _ => rfl⟩, fun _ => (habort rfl).2⟩

theorem unspoilt_movesDone (hword : Node.WordScored env.beyond) {node : Node}
    {ply depth alpha beta s history n es s' ls} {n' : Node}
    (hstart : ({ node with type := .fullwidth, historytable := some node.board.side } : Node).start
      env.beyond history = some n)
    (hkiller : n' = ls.node ∨ n' = ls.node.addKiller ls.node.getBestMove)
    (ih : Unspoilt (.loop (.search ply (mainDepth node depth alpha) (fprune node depth alpha) beta)
      ⟨n, alpha, -infty, 0, true⟩) s es s' (.looped ls false)) :
    Unspoilt (.moves node ply depth alpha beta) s
      (es ++ (.looped ls.node depth alpha :: .wrote .hash ls.node.tainted ::
        (historyEvents ls.node ++ killerEvents ls.node)))
      s' (.ret n' ⟨searchScore env ply beta ls, false⟩) := by
  intro hw hs ht
  have hn : n.Sound := hs.started hstart (.refl _) ⟨rfl, rfl, rfl, rfl⟩ rfl
  obtain ⟨hclean, hstays, _, hdone⟩ := ih hw hn (pending_start hword hs hstart ht)
  have hls := hdone rfl
  have hn' : n'.tainted = false := by
    rcases hkiller with rfl | rfl
    · exact hls
    · exact (ls.node.results_addKiller _).1.trans hls
  exact ⟨⟨hclean.append (clean_finish hls _ _), hstays, nofun,
    fun e => absurd (hn'.symm.trans e) Bool.false_ne_true⟩, nofun⟩

theorem unspoilt_rootAbort {node : Node} {depth alpha beta s history n es s' ls}
    (hstart : node.start env.beyond history = some n)
    (ih : Unspoilt (.loop (.root depth beta) ⟨n, alpha, -infty, 0, true⟩) s es s' (.looped ls true)) :
    Unspoilt (.root node depth alpha beta) s (es ++ [.returned .root alpha beta .abort s']) s'
      (.ret ls.node .abort) := by
  intro hw hs ht
  obtain ⟨hclean, hstays, habort, _⟩ := ih hw (hs.start hstart)
    (fun h => absurd h (untainted_start hstart ht))
  exact ⟨hclean.append (List.forall_mem_singleton.mpr trivial), hstays,
    fun _ => ⟨(habort rfl).1, rfl⟩, fun _ => rfl⟩

theorem unspoilt_rootDone {node : Node} {depth alpha beta s history n es s' ls score}
    (hstart : node.start env.beyond history = some n)
    (ih : Unspoilt (.loop (.root depth beta) ⟨n, alpha, -infty, 0, true⟩) s es s' (.looped ls false)) :
    Unspoilt (.root node depth alpha beta) s
      (es ++ (historyEvents ls.node ++ [.returned .root alpha beta ⟨score, false⟩ s'])) s'
      (.ret ls.node ⟨score, false⟩) := by
  intro hw hs ht
  obtain ⟨hclean, hstays, _, hdone⟩ := ih hw (hs.start hstart)
    (fun h => absurd h (untainted_start hstart ht))
  have hls := hdone rfl
  exact ⟨hclean.append ((clean_historyEvents hls).append (List.forall_mem_singleton.mpr trivial)),
    hstays, nofun, fun e => absurd (hls.symm.trans e) Bool.false_ne_true⟩

theorem unspoilt_loopEnd {k ls s} (hno : ls.node.pick.2 = .noMove) :
    Unspoilt (.loop k ls) s [] s (.looped { ls with node := ls.node.pick.1 } false) := by
  intro _ hs ht
  refine ⟨clean_nil, id, nofun, fun _ => ?_⟩
  have htaint : ls.node.tainted = false := by
    by_contra h
    exact (ht (Bool.not_eq_false _ ▸ h)).2.pick_ne hs hno
  exact (Node.results_pick ls.node).1.trans htaint

theorem unspoilt_loopNext {k ls s es₁ s₁ ls' es₂ s₂ ls'' aborted} (hpick : ls.node.pick.2 ≠ .noMove)
    (hvisit : Runs env hashed (.visit k { ls with node := ls.node.pick.1 } ls.node.pick.2) s es₁ s₁
      (.step (.next ls')))
    (ih₁ : Unspoilt (.visit k { ls with node := ls.node.pick.1 } ls.node.pick.2) s es₁ s₁
      (.step (.next ls')))
    (ih₂ : Unspoilt (.loop k ls') s₁ es₂ s₂ (.looped ls'' aborted)) :
    Unspoilt (.loop k ls) s (es₁ ++ es₂) s₂ (.looped ls'' aborted) := by
  intro hw hs ht
  obtain ⟨hsound, hlist, hmem⟩ := hs.visit hpick
  obtain ⟨hclean₁, hstays₁, hw', ht'⟩ := ih₁ hw hsound hlist hmem (pending_pick hpick ht)
  obtain ⟨hclean₂, hstays₂, hend⟩ := ih₂ hw' (hvisit.frames.keeps.sound hsound) ht'
  exact ⟨hclean₁.append hclean₂, fun e => hstays₂ (hstays₁ e), hend⟩

theorem unspoilt_loopCut {k ls s es s' ls'} (hpick : ls.node.pick.2 ≠ .noMove)
    (ih : Unspoilt (.visit k { ls with node := ls.node.pick.1 } ls.node.pick.2) s es s'
      (.step (.cut ls'))) :
    Unspoilt (.loop k ls) s es s' (.looped ls' false) := by
  intro hw hs ht
  obtain ⟨hsound, hlist, hmem⟩ := hs.visit hpick
  obtain ⟨hclean, hstays, htaint⟩ := ih hw hsound hlist hmem (pending_pick hpick ht)
  exact ⟨hclean, hstays, nofun, fun _ => htaint⟩

theorem unspoilt_loopAbort {k ls s es s' ls'} (hpick : ls.node.pick.2 ≠ .noMove)
    (ih : Unspoilt (.visit k { ls with node := ls.node.pick.1 } ls.node.pick.2) s es s'
      (.step (.abort ls'))) :
    Unspoilt (.loop k ls) s es s' (.looped ls' true) := by
  intro hw hs ht
  obtain ⟨hsound, hlist, hmem⟩ := hs.visit hpick
  obtain ⟨hclean, hstays, habort⟩ := ih hw hsound hlist hmem (pending_pick hpick ht)
  exact ⟨hclean, hstays, fun _ => habort, nofun⟩

theorem unspoilt_illegal {k} {ls : MoveLoop} {mov s slot}
    (hl : (ls.node.makeMove mov slot).board.isLegal = false) :
    Unspoilt (.visit k ls mov) s [] s (.step (.next ls)) := by
  intro hw _ _ _ ht
  refine ⟨clean_nil, id, hw, fun e => ?_⟩
  obtain ⟨hs, hmov | hrest⟩ := ht e
  · exact absurd (hl.symm.trans hmov.1) Bool.false_ne_true
  · exact ⟨hs, hrest⟩

theorem unspoilt_skipped {k} {ls : MoveLoop} {mov s slot}
    (hskip : skipped k.fprune ls.node (ls.node.makeMove mov slot) mov = true) :
    Unspoilt (.visit k ls mov) s [] s (.step (.next { ls with moves := ls.moves + 1 })) := by
  intro hw _ _ _ ht
  refine ⟨clean_nil, id, hw, fun e => ?_⟩
  obtain ⟨hs, hmov | hrest⟩ := ht e
  · exact absurd (hmov.2.symm.trans hskip) Bool.false_ne_true
  · exact ⟨hs, hrest⟩

theorem unspoilt_late {k ls mov s es s' st} (ih : Unspoilt (.visit k ls mov) true es s' (.step st)) :
    Unspoilt (.visit k ls mov) s es s' (.step st) := by
  intro hw hs hlist hmem ht
  obtain ⟨hclean, hstays, hend⟩ := ih hw hs hlist hmem (fun e => ⟨rfl, (ht e).2⟩)
  exact ⟨hclean, fun _ => hstays rfl, hend⟩

theorem unspoilt_visitAbort {k} {ls : MoveLoop} {mov s slot line es s' n r}
    (hl : (ls.node.makeMove mov slot).board.isLegal = true)
    (hskip : skipped k.fprune ls.node (ls.node.makeMove mov slot) mov = false)
    (ih : Unspoilt (.scout k { ls.node.makeMove mov slot with pvline := line } ls.alpha) s es s'
      (.ret n r)) :
    Unspoilt (.visit k ls mov) s es true (.step (.abort (ls.enter.taint r))) := by
  intro hw hs hlist hmem ht
  obtain ⟨hclean, _⟩ := ih hw (hs.makeMove hlist slot hl line) rfl
  exact ⟨hclean, fun _ => rfl, rfl, mov, hmem, hl, hskip⟩

theorem unspoilt_visitCut {k} {ls ls' : MoveLoop} {mov s slot line es s' n r}
    (hl : (ls.node.makeMove mov slot).board.isLegal = true) (hs' : s' = false)
    (hls : ls' = { ls.enter.taint r with node := k.note r.score (ls.enter.taint r).node })
    (ih : Unspoilt (.scout k { ls.node.makeMove mov slot with pvline := line } ls.alpha) s es s'
      (.ret n r)) :
    Unspoilt (.visit k ls mov) s (es ++ ls'.takeEvents mov n r) false (.step (.cut (ls'.take mov n r))) := by
  intro hw hs hlist hmem ht
  obtain ⟨hclean, hstays, habort⟩ := ih hw (hs.makeMove hlist slot hl line) rfl
  obtain ⟨htaint, hr⟩ := untainted_visit hs' (fun e => hstays (ht e).1) habort
  subst hls
  refine ⟨hclean.append (clean_takeEvents hr),
    fun e => absurd (hs'.symm.trans (hstays e)) Bool.false_ne_true, ?_⟩
  refine (tainted_visit k ls mov n r).trans ?_
  rw [htaint, hr]
  rfl

theorem unspoilt_visitNext {k} {ls ls' : MoveLoop} {mov s slot line es s' n r}
    (hl : (ls.node.makeMove mov slot).board.isLegal = true) (hs' : s' = false) (hlt : r.score < k.beta)
    (hls : ls' = { ls.enter.taint r with node := k.note r.score (ls.enter.taint r).node })
    (ih : Unspoilt (.scout k { ls.node.makeMove mov slot with pvline := line } ls.alpha) s es s'
      (.ret n r)) :
    Unspoilt (.visit k ls mov) s (es ++ ls'.takeEvents mov n r) false (.step (.next (ls'.take mov n r))) := by
  intro hw hs hlist hmem ht
  obtain ⟨hclean, hstays, habort⟩ := ih hw (hs.makeMove hlist slot hl line) rfl
  obtain ⟨htaint, hr⟩ := untainted_visit hs' (fun e => hstays (ht e).1) habort
  subst hls
  refine ⟨hclean.append (clean_takeEvents hr),
    fun e => absurd (hs'.symm.trans (hstays e)) Bool.false_ne_true,
    hw.raise (le_take_alpha _ mov n r) (take_alpha_lt mov n hw.lt hlt), fun e => ?_⟩
  rw [tainted_visit, htaint, hr] at e
  cases e

theorem unspoilt_scoutFull {k child alpha s es s' n r}
    (ih : Unspoilt (k.call child (-k.beta) (-alpha)) s es s' (.ret n r)) :
    Unspoilt (.scout k child alpha) s es s' (.ret n r.negate) := by
  intro hw hs ht
  have h := unspoilt_call ih hw.negated hs ht
  exact ⟨h.clean, h.stays, fun e => (h.aborted e).1⟩

theorem unspoilt_scoutNull {k child alpha s es s' n r}
    (ih : Unspoilt (k.call child (-alpha - 1) (-alpha)) s es s' (.ret n r)) :
    Unspoilt (.scout k child alpha) s es s' (.ret n r.negate) := by
  intro hw hs ht
  have h := unspoilt_call ih hw.null hs ht
  exact ⟨h.clean, h.stays, fun e => (h.aborted e).1⟩

theorem unspoilt_scoutAgain {k child alpha s es₁ s₁ n₁ r₁ es₂ s₂ n₂ r₂}
    (hrun : Runs env hashed (k.call child (-alpha - 1) (-alpha)) s es₁ s₁ (.ret n₁ r₁))
    (hlow : r₁.negate.score > alpha)
    (ih₁ : Unspoilt (k.call child (-alpha - 1) (-alpha)) s es₁ s₁ (.ret n₁ r₁))
    (ih₂ : Unspoilt (k.call n₁ (-k.beta) (-alpha)) s₁ es₂ s₂ (.ret n₂ r₂)) :
    Unspoilt (.scout k child alpha) s (es₁ ++ es₂) s₂
      (.ret n₂ ⟨r₂.negate.score, r₁.aborted || r₂.aborted⟩) := by
  intro hw hs ht
  have h₁ := unspoilt_call ih₁ hw.null hs ht
  have hr₁ : r₁.aborted ≠ true :=
    fun e => absurd hlow (not_lt.mpr (negate_aborted_le (h₁.aborted e).2 hw.intMin_lt))
  have ht₁ : n₁.tainted = false := Bool.not_eq_true _ ▸ fun e => hr₁ (h₁.tainted e)
  have h₂ := unspoilt_call ih₂ hw.negated (keepsSound_call hrun.sound hs) ht₁
  refine ⟨h₁.clean.append h₂.clean, fun e => h₂.stays (h₁.stays e), fun e => ?_⟩
  rcases Bool.or_eq_true_iff.mp e with e | e
  · exact absurd e hr₁
  · exact (h₂.aborted e).1

/-- **No run spoils anything.** -/
theorem Runs.unspoilt (hword : Node.WordScored env.beyond) {task : Task} {s : Bool} {es : List Event}
    {s' : Bool} {res : Result} (h : Runs env hashed task s es s' res) : Unspoilt task s es s' res := by
  induction h with
  | quiesce _ ih => exact unspoilt_quiesce ih
  | search _ ih => exact unspoilt_search ih
  | quiesceHit hp | quiesceCut hp =>
    intro _ _ ht
    exact orderly_pure clean_nil ((frame_probes hp).2.2.1.trans ht)
  | quiesceLeaf hp =>
    intro _ _ ht
    exact orderly_pure (List.forall_mem_singleton.mpr trivial) ((frame_probes hp).2.2.1.trans ht)
  | quiesceAbort hp hlt _ hstart _ ih => exact unspoilt_quiesceAbort hp hlt hstart ih
  | quiesceDone hp hlt _ hstart _ ih => exact unspoilt_quiesceDone hp hlt hstart ih
  | searchLeaf hd _ ih => exact fun hw hs ht => ⟨ih hw hs ht, fun h => absurd h (not_lt.mpr hd)⟩
  | searchDraw =>
    exact fun _ _ ht => ⟨orderly_pure clean_nil ht, fun _ h => absurd (ht.symm.trans h) Bool.false_ne_true⟩
  | searchHit _ hp => exact unspoilt_searchHit hp
  | searchNull _ hp _ ih => exact unspoilt_searchNull hp ih
  | searchMain _ hp _ hdeepen _ ih₁ ih₂ ih₃ => exact unspoilt_searchMain hp hdeepen ih₁ ih₂ ih₃
  | nullSkip => exact fun _ _ => ⟨clean_nil, id⟩
  | nullDone hc _ ih => exact unspoilt_nullDone hc ih
  | deepenSkip =>
    exact fun _ _ ht => ⟨clean_nil, id, fun h => absurd (ht.symm.trans h) Bool.false_ne_true⟩
  | deepenDone hd _ ih => exact unspoilt_deepenDone hd ih
  | movesAbort hstart _ ih => exact unspoilt_movesAbort hword hstart ih
  | movesDone hstart _ hkiller ih => exact unspoilt_movesDone hword hstart hkiller ih
  | rootAbort hstart _ ih => exact unspoilt_rootAbort hstart ih
  | rootDone hstart _ _ ih => exact unspoilt_rootDone hstart ih
  | loopEnd hno => exact unspoilt_loopEnd hno
  | loopNext hpick hvisit _ ih₁ ih₂ => exact unspoilt_loopNext hpick hvisit ih₁ ih₂
  | loopCut hpick _ ih => exact unspoilt_loopCut hpick ih
  | loopAbort hpick _ ih => exact unspoilt_loopAbort hpick ih
  | illegal hl => exact unspoilt_illegal hl
  | skipped _ hskip => exact unspoilt_skipped hskip
  | late _ ih => exact unspoilt_late ih
  | visitAbort hl hskip _ ih => exact unspoilt_visitAbort hl hskip ih
  | visitCut hl _ _ hs' _ hls ih => exact unspoilt_visitCut hl hs' hls ih
  | visitNext hl _ _ hs' hlt hls ih => exact unspoilt_visitNext hl hs' hlt hls ih
  | scoutFull _ ih => exact unspoilt_scoutFull ih
  | scoutNull _ _ ih => exact unspoilt_scoutNull ih
  | scoutAgain hrun hlow _ _ ih₁ ih₂ => exact unspoilt_scoutAgain hrun hlow ih₁ ih₂

/-- A completed iteration leaves its root ready for the next. -/
theorem Iteration.clean {depth : Nat} {node : Node} {best : Move} {alpha beta : Int} {s s' : Bool}
    {es : List Event} {p : Node × Decision}
    (h : Iteration env hashed depth node best alpha beta s es s' p)
    (hword : Node.WordScored env.beyond) (hw : IntWindow alpha beta)
    (hs : node.Sound) (ht : node.tainted = false) : Clean es ∧
      ∀ best' a b, p.2 = .deeper best' a b → IntWindow a b ∧ p.1.Sound ∧ p.1.tainted = false := by
  induction h with
  | stopped hroot => exact ⟨(hroot.unspoilt hword hw hs ht).clean, nofun⟩
  | @again node best alpha beta s es₁ s₁ n r es₂ alpha' beta' es₃ s' res hroot hs₁ hd _ ih =>
    have h := hroot.unspoilt hword hw hs ht
    obtain ⟨hclean, hend⟩ := ih (hd.again_window hw) (hroot.sound hs) (h.untainted hs₁)
    exact ⟨h.clean.append ((hd.clean hs₁).append hclean), hend⟩
  | @decided node best alpha beta s es₁ s₁ n r es₂ d hroot hs₁ hd =>
    have h := hroot.unspoilt hword hw hs ht
    refine ⟨h.clean.append (hd.clean hs₁), ?_⟩
    rintro best' a b rfl
    exact ⟨hd.deeper_window, hroot.sound hs, h.untainted hs₁⟩

theorem Iterates.clean {depth : Nat} {node : Node} {best : Move} {alpha beta : Int} {s s' : Bool}
    {es : List Event} {p : Node × Move}
    (h : Iterates env hashed depth node best alpha beta s es s' p)
    (hword : Node.WordScored env.beyond) (hw : IntWindow alpha beta) (hs : node.Sound)
    (ht : node.tainted = false) : Clean es := by
  induction h with
  | rest => exact clean_nil
  | stop hiter | late hiter | again hiter => exact (hiter.clean hword hw hs ht).1
  | deeper hiter _ ih =>
    obtain ⟨hclean, hend⟩ := hiter.clean hword hw hs ht
    obtain ⟨hw', hs', ht'⟩ := hend _ _ _ rfl
    exact hclean.append (ih hw' hs' ht')

end Runs

end Search

end HoiChess
