import HoiChess.Common.Calls

/-!
# Fail-hard searches

With `failsoft` off every call is meant to return a score of its window.  The one place
that can break this is the depth limit of `quiescence_search`, which returns the static
score as it is: a run keeps all its windows exactly if no static score at the last ply is
below the alpha of its node (`call_failHard_iff`).
-/

namespace HoiChess

open Chess Exec

namespace Search

/-- Of a score and a window: the score lies in it, unless the search was stopped. -/
def Within (s : Bool) (alpha beta : Int) (r : Ret) : Prop :=
  s = false → alpha ≤ r.score ∧ r.score ≤ beta

/-- Every call that returned before a stop returned a score of its window. -/
def FailHard (es : List Event) : Prop :=
  ∀ e ∈ es, match e with
    | .returned _ alpha beta r s => Within s alpha beta r
    | _ => True

/-- No static score at the last ply was below the alpha of its node. -/
def NoLowLeaf (es : List Event) : Prop :=
  ∀ e ∈ es, match e with
    | .evaluated alpha score s => s = false → alpha ≤ score
    | _ => True

section Events

variable {es es' : List Event}

theorem failHard_append : FailHard (es ++ es') ↔ FailHard es ∧ FailHard es' := List.forall_mem_append

theorem noLowLeaf_append : NoLowLeaf (es ++ es') ↔ NoLowLeaf es ∧ NoLowLeaf es' :=
  List.forall_mem_append

theorem failHard_nil : FailHard [] := List.forall_mem_nil _

theorem noLowLeaf_nil : NoLowLeaf [] := List.forall_mem_nil _

theorem failHard_singleton {c : Caller} {alpha beta : Int} {r : Ret} {s : Bool} :
    FailHard [.returned c alpha beta r s] ↔ Within s alpha beta r := List.forall_mem_singleton

/-- A trace of a return alone. -/
theorem noLowLeaf_singleton {c : Caller} {alpha beta : Int} {r : Ret} {s : Bool} :
    NoLowLeaf [.returned c alpha beta r s] := List.forall_mem_singleton.mpr trivial

/-- The events between calls: neither of the two conditions sees them. -/
def Silent (es : List Event) : Prop :=
  ∀ e ∈ es, match e with
    | .returned _ _ _ _ _ | .evaluated _ _ _ => False
    | _ => True

theorem Silent.failHard (h : Silent es) : FailHard es := by
  intro e he
  have := h e he
  cases e with
  | returned => exact this.elim
  | _ => trivial

theorem Silent.noLowLeaf (h : Silent es) : NoLowLeaf es := by
  intro e he
  have := h e he
  cases e with
  | evaluated => exact this.elim
  | _ => trivial

theorem Silent.failHard_iff (h : Silent es') : FailHard (es ++ es') ↔ FailHard es :=
  failHard_append.trans (and_iff_left h.failHard)

theorem Silent.noLowLeaf_iff (h : Silent es') : NoLowLeaf (es ++ es') ↔ NoLowLeaf es :=
  noLowLeaf_append.trans (and_iff_left h.noLowLeaf)

theorem silent_wrote (place : Place) (aborted : Bool) : Silent [.wrote place aborted] :=
  List.forall_mem_singleton.mpr trivial

theorem silent_takeEvents (ls : MoveLoop) (mov : Move) (child : Node) (r : Ret) :
    Silent (ls.takeEvents mov child r) := by
  intro e he
  rcases MoveLoop.mem_takeEvents he with ⟨_, rfl | rfl⟩ | rfl <;> trivial

theorem silent_historyEvents (node : Node) : Silent (historyEvents node) := by
  intro e he
  rw [mem_historyEvents he]
  trivial

theorem silent_finish (ls : MoveLoop) (depth alpha : Int) : Silent (.looped ls.node depth alpha ::
    .wrote .hash ls.node.tainted :: (historyEvents ls.node ++ killerEvents ls.node)) := by
  refine List.forall_mem_cons.mpr ⟨trivial, List.forall_mem_cons.mpr ⟨trivial, ?_⟩⟩
  refine List.forall_mem_append.mpr ⟨silent_historyEvents _, fun e he => ?_⟩
  rw [mem_killerEvents he]
  trivial

end Events

theorem negate_within {r : Ret} {s : Bool} {a b : Int} (h : IntWindow a b)
    (hr : Within s a b r) : Within s (-b) (-a) r.negate := by
  intro hs
  obtain ⟨h1, h2⟩ := hr hs
  have hmin := h.intMin_lt
  show -b ≤ (if r.score = intMin then intMin else -r.score) ∧
    (if r.score = intMin then intMin else -r.score) ≤ -a
  rw [if_neg (by omega)]
  omega

section Scores

variable {env : SearchEnv} {beta : Int} {ls : MoveLoop}

/-- The score after the loop of `quiescence_search` is between alpha and beta. -/
theorem quiesceScore_mem (hfail : env.failsoft = false) (ply : Nat) (h : ls.alpha ≤ beta) :
    ls.alpha ≤ quiesceScore env ply beta ls ∧ quiesceScore env ply beta ls ≤ beta := by
  unfold quiesceScore
  simp only [hfail, Bool.false_eq_true, if_false]
  split
  · exact boundScore_mem h _
  · exact ⟨le_rfl, h⟩

/-- So is the one after the loop of `search`. -/
theorem searchScore_mem (hfail : env.failsoft = false) (ply : Nat) (h : ls.alpha ≤ beta) :
    ls.alpha ≤ searchScore env ply beta ls ∧ searchScore env ply beta ls ≤ beta := by
  unfold searchScore
  simp only [hfail, Bool.false_eq_true, if_false]
  split
  · exact boundScore_mem h _
  · exact ⟨le_rfl, h⟩

end Scores

/-- What a run of each task keeps.  A call notes its own return; for the parts of a call
the score they hand on is judged together with their trace. -/
def Hard : Task → List Event → Bool → Result → Prop
  | .quiesce _ _ alpha beta, es, s', .ret _ r | .search _ _ _ alpha beta, es, s', .ret _ r
  | .root _ _ alpha beta, es, s', .ret _ r => IntWindow alpha beta →
    (FailHard es ↔ NoLowLeaf es) ∧ (FailHard es → Within s' alpha beta r)
  | .quiesceBody _ _ alpha beta, es, s', .ret _ r | .searchBody _ _ _ alpha beta, es, s', .ret _ r
  | .moves _ _ _ alpha beta, es, s', .ret _ r => IntWindow alpha beta →
    (FailHard es ∧ Within s' alpha beta r ↔ NoLowLeaf es)
  | .null _ _ _ beta, es, _, .cut score => IntWindow (-beta) (-beta + 1) →
    (FailHard es ↔ NoLowLeaf es) ∧ ∀ v, score = some v → v = beta
  | .deepen _ _ _ alpha beta, es, _, .node _ => IntWindow alpha beta → (FailHard es ↔ NoLowLeaf es)
  | .loop k ls, es, s', .looped ls' aborted => IntWindow ls.alpha k.beta →
    (FailHard es ↔ NoLowLeaf es) ∧ (aborted = true → s' = true) ∧
      (aborted = false → FailHard es → ls.alpha ≤ ls'.alpha ∧ ls'.alpha ≤ k.beta)
  | .visit k ls _, es, s', .step st => IntWindow ls.alpha k.beta →
    (FailHard es ↔ NoLowLeaf es) ∧
      match st with
      | .next ls' => ls.alpha ≤ ls'.alpha ∧ ls'.alpha < k.beta
      | .cut ls' => ls.alpha ≤ ls'.alpha ∧ (FailHard es → ls'.alpha ≤ k.beta)
      | .abort _ => s' = true
  | .scout k _ alpha, es, s', .ret _ r => IntWindow alpha k.beta →
    (FailHard es ↔ NoLowLeaf es) ∧ (FailHard es → Within s' alpha k.beta r)
  | _, _, _, _ => True

theorem hard_call {k : LoopKind} {child : Node} {a b : Int} {es : List Event} {s' : Bool} {n : Node}
    {r : Ret} (h : Hard (k.call child a b) es s' (.ret n r)) (hw : IntWindow a b) :
    (FailHard es ↔ NoLowLeaf es) ∧ (FailHard es → Within s' a b r) := by
  cases k with
  | quiesce ply beta => exact h hw
  | search ply depth fprune beta => exact h hw
  | root depth beta => exact h hw

/-! ## One step of a run -/

section Steps

variable {env : SearchEnv}

theorem hard_quiesceCut (hfail : env.failsoft = false) {n : Node} {node ply alpha beta s t} :
    Hard (.quiesceBody node ply alpha beta) [] s
      (.ret n ⟨if env.failsoft then env.eval t n.board alpha beta else beta, false⟩) := by
  intro hw
  refine iff_of_true ⟨failHard_nil, fun _ => ?_⟩ noLowLeaf_nil
  rw [hfail]
  exact ⟨hw.lt.le, le_rfl⟩

theorem hard_quiesceLeaf {n : Node} {node ply alpha beta s t} (hlt : env.eval t n.board alpha beta < beta) :
    Hard (.quiesceBody node ply alpha beta) [.evaluated alpha (env.eval t n.board alpha beta) s] s
      (.ret n ⟨env.eval t n.board alpha beta, false⟩) := by
  intro hw
  constructor
  · rintro ⟨_, hin⟩ e he
    cases List.mem_singleton.mp he
    exact fun hs => (hin hs).1
  · intro h
    refine ⟨fun e he => ?_, fun hs => ⟨h _ List.mem_cons_self hs, hlt.le⟩⟩
    cases List.mem_singleton.mp he
    trivial

theorem hard_quiesceAbort {n : Node} {node ply alpha beta t n' es s' ls}
    (hlt : env.eval t n.board alpha beta < beta)
    (ih : Hard (.loop (.quiesce ply beta) ⟨n', max (env.eval t n.board alpha beta) alpha,
      if env.failsoft then env.eval t n.board alpha beta else -infty, 0, true⟩) es s' (.looped ls true)) :
    Hard (.quiesceBody node ply alpha beta) es s' (.ret ls.node .abort) := by
  intro hw
  obtain ⟨hiff, habort, _⟩ :=
    ih ⟨max_lt hlt hw.lt, lt_of_lt_of_le hw.intMin_lt (le_max_right _ _), hw.lt_neg_intMin⟩
  rw [hiff]
  refine and_iff_left fun hs => ?_
  rw [habort rfl] at hs
  cases hs

theorem hard_quiesceDone (hfail : env.failsoft = false) {n : Node} {node ply alpha beta t n' es s' ls}
    (hlt : env.eval t n.board alpha beta < beta)
    (ih : Hard (.loop (.quiesce ply beta) ⟨n', max (env.eval t n.board alpha beta) alpha,
      if env.failsoft then env.eval t n.board alpha beta else -infty, 0, true⟩) es s'
        (.looped ls false)) :
    Hard (.quiesceBody node ply alpha beta) (es ++ [.wrote .hash ls.node.tainted]) s'
      (.ret ls.node ⟨quiesceScore env ply beta ls, false⟩) := by
  intro hw
  obtain ⟨hiff, _, hdone⟩ :=
    ih ⟨max_lt hlt hw.lt, lt_of_lt_of_le hw.intMin_lt (le_max_right _ _), hw.lt_neg_intMin⟩
  rw [(silent_wrote _ _).failHard_iff, (silent_wrote _ _).noLowLeaf_iff, hiff]
  refine and_iff_left_of_imp fun h _ => ?_
  obtain ⟨hle, hbeta⟩ := hdone rfl (hiff.mpr h)
  exact (quiesceScore_mem hfail _ hbeta).imp_left ((le_max_right _ _).trans hle).trans

theorem hard_searchLeaf {node ply depth alpha beta es s' n r}
    (ih : Hard (.quiesce node ply alpha beta) es s' (.ret n r)) :
    Hard (.searchBody node ply depth alpha beta) es s' (.ret n r) := by
  intro hw
  obtain ⟨hiff, hin⟩ := ih hw
  rw [← hiff]
  exact and_iff_left_of_imp hin

theorem hard_searchDraw (hfail : env.failsoft = false) {node ply depth alpha beta s drawscore} :
    Hard (.searchBody node ply depth alpha beta) [] s
      (.ret node ⟨if env.failsoft then drawscore else boundScore drawscore alpha beta, false⟩) := by
  intro hw
  refine iff_of_true ⟨failHard_nil, fun _ => ?_⟩ noLowLeaf_nil
  rw [hfail]
  exact boundScore_mem hw.lt.le _

theorem hard_searchNull {node ply depth alpha beta n es s' score}
    (ih : Hard (.null n ply depth beta) es s' (.cut (some score))) :
    Hard (.searchBody node ply depth alpha beta) es s' (.ret n ⟨score, false⟩) := by
  intro hw
  obtain ⟨hiff, hcut⟩ := ih hw.pass
  rw [hiff]
  refine and_iff_left fun _ => ?_
  rw [hcut _ rfl]
  exact ⟨hw.lt.le, le_rfl⟩

theorem hard_searchMain {node ply depth alpha beta n es₁ s₁ n₂ es₂ s₂ es₃ s₃ n₃ r}
    (ih₁ : Hard (.null n ply depth beta) es₁ s₁ (.cut none))
    (ih₂ : Hard (.deepen n ply depth alpha beta) es₂ s₂ (.node n₂))
    (ih₃ : Hard (.moves n₂ ply depth alpha beta) es₃ s₃ (.ret n₃ r)) :
    Hard (.searchBody node ply depth alpha beta) (es₁ ++ (es₂ ++ es₃)) s₃ (.ret n₃ r) := by
  intro hw
  rw [failHard_append, failHard_append, noLowLeaf_append, noLowLeaf_append, (ih₁ hw.pass).1, ih₂ hw,
    ← ih₃ hw, and_assoc, and_assoc]

theorem hard_movesAbort {node : Node} {ply depth alpha beta n es s' ls}
    (ih : Hard (.loop (.search ply (mainDepth node depth alpha) (fprune node depth alpha) beta)
      ⟨n, alpha, -infty, 0, true⟩) es s' (.looped ls true)) :
    Hard (.moves node ply depth alpha beta) es s' (.ret ls.node .abort) := by
  intro hw
  obtain ⟨hiff, habort, _⟩ := ih hw
  rw [hiff]
  refine and_iff_left fun hs => ?_
  rw [habort rfl] at hs
  cases hs

theorem hard_movesDone (hfail : env.failsoft = false) {node : Node} {ply depth alpha beta n es s' ls}
    {n' : Node}
    (ih : Hard (.loop (.search ply (mainDepth node depth alpha) (fprune node depth alpha) beta)
      ⟨n, alpha, -infty, 0, true⟩) es s' (.looped ls false)) :
    Hard (.moves node ply depth alpha beta)
      (es ++ (.looped ls.node depth alpha :: .wrote .hash ls.node.tainted ::
        (historyEvents ls.node ++ killerEvents ls.node)))
      s' (.ret n' ⟨searchScore env ply beta ls, false⟩) := by
  intro hw
  obtain ⟨hiff, _, hdone⟩ := ih hw
  rw [(silent_finish _ _ _).failHard_iff, (silent_finish _ _ _).noLowLeaf_iff, hiff]
  refine and_iff_left_of_imp fun h _ => ?_
  obtain ⟨hle, hbeta⟩ := hdone rfl (hiff.mpr h)
  exact (searchScore_mem hfail _ hbeta).imp_left hle.trans

theorem hard_rootAbort {node : Node} {depth alpha beta n es s' ls}
    (ih : Hard (.loop (.root depth beta) ⟨n, alpha, -infty, 0, true⟩) es s' (.looped ls true)) :
    Hard (.root node depth alpha beta) (es ++ [.returned .root alpha beta .abort s']) s'
      (.ret ls.node .abort) := by
  intro hw
  obtain ⟨hiff, habort, _⟩ := ih hw
  rw [failHard_append, noLowLeaf_append, failHard_singleton, hiff]
  refine ⟨and_congr_right fun _ => iff_of_true ?_ noLowLeaf_singleton, fun h => h.2⟩
  intro hs
  rw [habort rfl] at hs
  cases hs

theorem hard_rootDone (hfail : env.failsoft = false) {node : Node} {depth alpha beta n es s' ls score}
    (hscore : score = (if env.failsoft then ls.bestscore else ls.alpha))
    (ih : Hard (.loop (.root depth beta) ⟨n, alpha, -infty, 0, true⟩) es s' (.looped ls false)) :
    Hard (.root node depth alpha beta)
      (es ++ (historyEvents ls.node ++ [.returned .root alpha beta ⟨score, false⟩ s'])) s'
      (.ret ls.node ⟨score, false⟩) := by
  intro hw
  obtain ⟨hiff, _, hdone⟩ := ih hw
  rw [← List.append_assoc, failHard_append, noLowLeaf_append, failHard_singleton,
    (silent_historyEvents _).failHard_iff, (silent_historyEvents _).noLowLeaf_iff, hiff]
  refine ⟨and_congr_right fun h => iff_of_true (fun _ => ?_) noLowLeaf_singleton, fun h => h.2⟩
  rw [hscore, hfail]
  exact hdone rfl (hiff.mpr h)

theorem hard_loopNext {k ls es₁ s₁ ls' es₂ s₂ ls'' aborted}
    (ih₁ : Hard (.visit k { ls with node := ls.node.pick.1 } ls.node.pick.2) es₁ s₁ (.step (.next ls')))
    (ih₂ : Hard (.loop k ls') es₂ s₂ (.looped ls'' aborted)) :
    Hard (.loop k ls) (es₁ ++ es₂) s₂ (.looped ls'' aborted) := by
  intro hw
  obtain ⟨hiff₁, hle, hlt⟩ := ih₁ hw
  obtain ⟨hiff₂, habort, hdone⟩ := ih₂ ⟨hlt, lt_of_lt_of_le hw.intMin_lt hle, hw.lt_neg_intMin⟩
  rw [failHard_append, noLowLeaf_append, hiff₁, hiff₂]
  exact ⟨Iff.rfl, habort, fun hd h => (hdone hd (hiff₂.mpr h.2)).imp_left hle.trans⟩

theorem hard_loopCut {k ls es s' ls'}
    (ih : Hard (.visit k { ls with node := ls.node.pick.1 } ls.node.pick.2) es s' (.step (.cut ls'))) :
    Hard (.loop k ls) es s' (.looped ls' false) := by
  intro hw
  obtain ⟨hiff, hle, hbeta⟩ := ih hw
  exact ⟨hiff, nofun, fun _ h => ⟨hle, hbeta h⟩⟩

theorem hard_loopAbort {k ls es s' ls'}
    (ih : Hard (.visit k { ls with node := ls.node.pick.1 } ls.node.pick.2) es s' (.step (.abort ls'))) :
    Hard (.loop k ls) es s' (.looped ls' true) := by
  intro hw
  obtain ⟨hiff, hs⟩ := ih hw
  exact ⟨hiff, fun _ => hs, nofun⟩

theorem hard_scoutFull {k child alpha es s' n r}
    (ih : Hard (k.call child (-k.beta) (-alpha)) es s' (.ret n r)) :
    Hard (.scout k child alpha) es s' (.ret n r.negate) := by
  intro hw
  obtain ⟨hiff, hin⟩ := hard_call ih hw.negated
  refine ⟨hiff, fun h => ?_⟩
  have := negate_within hw.negated (hin h)
  rwa [neg_neg, neg_neg] at this

theorem hard_scoutNull {k child alpha es s' n r}
    (ih : Hard (k.call child (-alpha - 1) (-alpha)) es s' (.ret n r)) :
    Hard (.scout k child alpha) es s' (.ret n r.negate) := by
  intro hw
  obtain ⟨hiff, hin⟩ := hard_call ih hw.null
  refine ⟨hiff, fun h hs => ?_⟩
  have := negate_within hw.null (hin h) hs
  have := hw.lt
  omega

theorem hard_scoutAgain {k child alpha es₁ s₁ n₁ r₁ es₂ s₂ n₂ r₂}
    (ih₁ : Hard (k.call child (-alpha - 1) (-alpha)) es₁ s₁ (.ret n₁ r₁))
    (ih₂ : Hard (k.call n₁ (-k.beta) (-alpha)) es₂ s₂ (.ret n₂ r₂)) :
    Hard (.scout k child alpha) (es₁ ++ es₂) s₂ (.ret n₂ ⟨r₂.negate.score, r₁.aborted || r₂.aborted⟩) := by
  intro hw
  obtain ⟨hiff₁, _⟩ := hard_call ih₁ hw.null
  obtain ⟨hiff₂, hin⟩ := hard_call ih₂ hw.negated
  rw [failHard_append, noLowLeaf_append, hiff₁, hiff₂]
  refine ⟨Iff.rfl, fun h => ?_⟩
  have := negate_within hw.negated (hin (hiff₂.mpr h.2))
  rwa [neg_neg, neg_neg] at this

end Steps

section Runs

variable [Build] {env : SearchEnv} {hashed : Bool}

theorem hard_nullDone (hfail : env.failsoft = false) {node : Node} {ply depth beta slot es s' n r}
    (ih : Hard (.search (node.makeMove .null slot) (ply + 1) (depth - 2 - 1) (-beta) (-beta + 1)) es
      s' (.ret n r)) :
    Hard (.null node ply depth beta) es s'
      (.cut (if r.negate.score ≥ beta then some (if env.failsoft then r.negate.score else beta)
        else none)) := by
  intro hw
  refine ⟨(ih hw).1, fun v hv => ?_⟩
  rw [hfail] at hv
  split at hv
  · exact (Option.some.inj hv).symm
  · cases hv

theorem hard_visitCut {k} {ls ls' : MoveLoop} {mov slot line es s' n r} (hs : s' = false)
    (hls : ls' = { ls.enter.taint r with node := k.note r.score (ls.enter.taint r).node })
    (ih : Hard (.scout k { ls.node.makeMove mov slot with pvline := line } ls.alpha) es s' (.ret n r)) :
    Hard (.visit k ls mov) (es ++ ls'.takeEvents mov n r) false (.step (.cut (ls'.take mov n r))) := by
  intro hw
  obtain ⟨hiff, hin⟩ := ih hw
  rw [(silent_takeEvents _ _ _ _).failHard_iff, (silent_takeEvents _ _ _ _).noLowLeaf_iff]
  subst hls
  exact ⟨hiff, le_take_alpha _ mov n r, fun h => take_alpha_le mov n hw.lt.le (hin h hs).2⟩

theorem hard_visitNext {k} {ls ls' : MoveLoop} {mov slot line es s' n r} (hlt : r.score < k.beta)
    (hls : ls' = { ls.enter.taint r with node := k.note r.score (ls.enter.taint r).node })
    (ih : Hard (.scout k { ls.node.makeMove mov slot with pvline := line } ls.alpha) es s' (.ret n r)) :
    Hard (.visit k ls mov) (es ++ ls'.takeEvents mov n r) false (.step (.next (ls'.take mov n r))) := by
  intro hw
  rw [(silent_takeEvents _ _ _ _).failHard_iff, (silent_takeEvents _ _ _ _).noLowLeaf_iff]
  subst hls
  exact ⟨(ih hw).1, le_take_alpha _ mov n r, take_alpha_lt mov n hw.lt hlt⟩

/-- **Every run keeps its windows exactly as long as no static score at the last ply is too
low.** -/
theorem Runs.hard (hfail : env.failsoft = false) {task : Task} {s : Bool} {es : List Event}
    {s' : Bool} {res : Result} (h : Runs env hashed task s es s' res) : Hard task es s' res := by
  induction h with
  | quiesce _ ih | search _ ih =>
    intro hw
    rw [failHard_append, noLowLeaf_append, failHard_singleton, ih hw]
    exact ⟨(and_iff_left noLowLeaf_singleton).symm, fun h => ((ih hw).mpr h).2⟩
  | quiesceHit hp | searchHit _ hp =>
    intro hw
    refine iff_of_true ⟨failHard_nil, fun _ => ?_⟩ noLowLeaf_nil
    obtain ⟨t, _, hp⟩ := hp
    rw [hfail] at hp
    exact probeHashtable_mem hw.lt.le hp
  | quiesceCut _ _ => exact hard_quiesceCut hfail
  | quiesceLeaf _ hlt _ => exact hard_quiesceLeaf hlt
  | quiesceAbort _ hlt _ _ _ ih => exact hard_quiesceAbort hlt ih
  | quiesceDone _ hlt _ _ _ ih => exact hard_quiesceDone hfail hlt ih
  | searchLeaf _ _ ih => exact hard_searchLeaf ih
  | searchDraw _ _ => exact hard_searchDraw hfail
  | searchNull _ _ _ ih => exact hard_searchNull ih
  | searchMain _ _ _ _ _ ih₁ ih₂ ih₃ => exact hard_searchMain ih₁ ih₂ ih₃
  | nullSkip => exact fun _ => ⟨iff_of_true failHard_nil noLowLeaf_nil, nofun⟩
  | nullDone _ _ ih => exact hard_nullDone hfail ih
  | deepenSkip => exact fun _ => iff_of_true failHard_nil noLowLeaf_nil
  | deepenDone _ _ ih => exact fun hw => (ih hw).1
  | movesAbort _ _ ih => exact hard_movesAbort ih
  | movesDone _ _ _ ih => exact hard_movesDone hfail ih
  | rootAbort _ _ ih => exact hard_rootAbort ih
  | rootDone _ _ hscore ih => exact hard_rootDone hfail hscore ih
  | loopEnd =>
    exact fun hw => ⟨iff_of_true failHard_nil noLowLeaf_nil, nofun, fun _ _ => ⟨le_rfl, hw.lt.le⟩⟩
  | loopNext _ _ _ ih₁ ih₂ => exact hard_loopNext ih₁ ih₂
  | loopCut _ _ ih => exact hard_loopCut ih
  | loopAbort _ _ ih => exact hard_loopAbort ih
  | illegal | skipped => exact fun hw => ⟨iff_of_true failHard_nil noLowLeaf_nil, le_rfl, hw.lt⟩
  | late _ ih => exact ih
  | visitAbort _ _ _ ih => exact fun hw => ⟨(ih hw).1, rfl⟩
  | visitCut _ _ _ hs _ hls ih => exact hard_visitCut hs hls ih
  | visitNext _ _ _ _ hlt hls ih => exact hard_visitNext hlt hls ih
  | scoutFull _ ih => exact hard_scoutFull ih
  | scoutNull _ _ ih => exact hard_scoutNull ih
  | scoutAgain _ _ _ _ ih₁ ih₂ => exact hard_scoutAgain ih₁ ih₂

end Runs

end Search

end HoiChess
