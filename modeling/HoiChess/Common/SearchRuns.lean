import HoiChess.Common.Search

/-!
# Runs of the search

`Runs` says which traces, results and changes of the stop flag the tasks of a search can
have, whatever the clock, the evaluator, other threads and the hash table do: one rule for
each way through the functions.  The functions are refinements of it (`search_refines`,
`searchRoot_refines`), so that a property of all runs is proved by induction on `Runs`.
-/

namespace HoiChess

open Chess Exec

namespace Search

/-- The loops over the moves of a node. -/
inductive LoopKind where
  | quiesce (ply : Nat) (beta : Int)
  | search (ply : Nat) (depth : Int) (fprune : Bool) (beta : Int)
  | root (depth beta : Int)

namespace LoopKind

def beta : LoopKind → Int
  | quiesce _ beta | search _ _ _ beta | root _ beta => beta

def fprune : LoopKind → Bool
  | search _ _ fprune _ => fprune
  | quiesce _ _ | root _ _ => false

/-- What the loop notes about a score before it is used. -/
def note : LoopKind → Int → Node → Node
  | root _ _, score => fun node => node.setCurrentScore score
  | quiesce _ _, _ | search _ _ _ _, _ => id

end LoopKind

/-- The parts of a search. -/
inductive Task where
  | quiesce (node : Node) (ply : Nat) (alpha beta : Int)
  | quiesceBody (node : Node) (ply : Nat) (alpha beta : Int)
  | search (node : Node) (ply : Nat) (depth alpha beta : Int)
  | searchBody (node : Node) (ply : Nat) (depth alpha beta : Int)
  | null (node : Node) (ply : Nat) (depth beta : Int)
  | deepen (node : Node) (ply : Nat) (depth alpha beta : Int)
  | moves (node : Node) (ply : Nat) (depth alpha beta : Int)
  | root (node : Node) (depth alpha beta : Int)
  | loop (k : LoopKind) (ls : MoveLoop)
  | visit (k : LoopKind) (ls : MoveLoop) (mov : Move)
  | scout (k : LoopKind) (child : Node) (alpha : Int)

/-- Their results. -/
inductive Result where
  | ret (node : Node) (r : Ret)
  | cut (score : Option Int)
  | node (node : Node)
  | looped (ls : MoveLoop) (aborted : Bool)
  | step (st : LoopStep)

/-- The search of a child from a move loop. -/
def LoopKind.call (k : LoopKind) (child : Node) (alpha beta : Int) : Task :=
  match k with
  | .quiesce ply _ => .quiesce child (ply + 1) alpha beta
  | .search ply depth _ _ => .search child (ply + 1) (depth - 1) alpha beta
  | .root depth _ => .search child 1 (depth - 1) alpha beta

namespace MoveLoop

/-- A move is going to be searched. -/
def enter (ls : MoveLoop) : MoveLoop := { ls with moves := ls.moves + 1, first := false }

/-- The node remembers that a child was aborted. -/
def taint (ls : MoveLoop) (r : Ret) : MoveLoop :=
  { ls with node := { ls.node with tainted := ls.node.tainted || r.aborted } }

/-- The score of a child has been used. -/
def take (ls : MoveLoop) (mov : Move) (child : Node) (r : Ret) : MoveLoop :=
  { ls with
    node := if r.score > ls.bestscore then ls.node.setBest mov child else ls.node
    bestscore := if r.score > ls.bestscore then r.score else ls.bestscore
    alpha := if r.score > ls.alpha then r.score else ls.alpha }

/-- What is written when the score of a child is used. -/
def takeEvents (ls : MoveLoop) (mov : Move) (child : Node) (r : Ret) : List Event :=
  (if r.score > ls.bestscore then
    [.wrote .best r.aborted, .bestLine ls.node.board (ls.node.setBest mov child).bestLine]
  else []) ++ if r.score > ls.alpha then [.wrote .alpha r.aborted] else []

end MoveLoop

/-- The writes of `add_history`. -/
def historyEvents (node : Node) : List Event :=
  if node.getBestMove = .noMove then [] else [.wrote .history node.tainted]

/-- The writes of `add_killer`. -/
def killerEvents (node : Node) : List Event :=
  let mov := node.getBestMove
  if mov ≠ node.hashmv ∧ !mov.isCapture ∧ !mov.isEnpassant ∧ !mov.isPromotion then
    [.wrote .killer node.tainted]
  else []

section Take

variable {ls : MoveLoop} {beta : Int}

theorem le_take_alpha (ls : MoveLoop) (mov : Move) (child : Node) (r : Ret) :
    ls.alpha ≤ (ls.take mov child r).alpha := by
  show ls.alpha ≤ if r.score > ls.alpha then r.score else ls.alpha
  split
  · exact le_of_lt ‹_›
  · exact le_rfl

theorem take_alpha_le (mov : Move) (child : Node) {r : Ret} (h : ls.alpha ≤ beta)
    (hr : r.score ≤ beta) : (ls.take mov child r).alpha ≤ beta := by
  show (if r.score > ls.alpha then r.score else ls.alpha) ≤ beta
  split
  · exact hr
  · exact h

theorem take_alpha_lt (mov : Move) (child : Node) {r : Ret} (h : ls.alpha < beta)
    (hr : r.score < beta) : (ls.take mov child r).alpha < beta := by
  show (if r.score > ls.alpha then r.score else ls.alpha) < beta
  split
  · exact hr
  · exact h

end Take

theorem MoveLoop.mem_takeEvents {ls : MoveLoop} {mov : Move} {child : Node} {r : Ret} {e : Event}
    (h : e ∈ ls.takeEvents mov child r) :
    (r.score > ls.bestscore ∧ (e = .wrote .best r.aborted ∨
      e = .bestLine ls.node.board (ls.node.setBest mov child).bestLine)) ∨
    e = .wrote .alpha r.aborted := by
  rcases List.mem_append.mp h with h | h
  · split at h
    · exact Or.inl ⟨‹_›, by simpa using h⟩
    · cases h
  · split at h
    · exact Or.inr (List.mem_singleton.mp h)
    · cases h

theorem mem_historyEvents {node : Node} {e : Event} (h : e ∈ historyEvents node) :
    e = .wrote .history node.tainted := by
  unfold historyEvents at h
  split at h
  · cases h
  · exact List.mem_singleton.mp h

theorem mem_killerEvents {node : Node} {e : Event} (h : e ∈ killerEvents node) :
    e = .wrote .killer node.tainted := by
  unfold killerEvents at h
  simp only at h
  split at h
  · exact List.mem_singleton.mp h
  · cases h

section Relation

variable [Build] (env : SearchEnv) (hashed : Bool)

/-- Some table that the run may be using answers a probe so. -/
def Probes (node : Node) (depth alpha beta : Int) (result : Node × Option Int) : Prop :=
  ∃ t, (hashed = true ∨ t = none) ∧ probeHashtable env.failsoft t node depth alpha beta = result

/-- The score at the end of `quiescence_search`. -/
def quiesceScore (ply : Nat) (beta : Int) (ls : MoveLoop) : Int :=
  let mated : Bool := ls.moves = 0 && ls.node.incheck
  if env.failsoft then (if mated then -infty + ply else ls.bestscore)
  else if mated then boundScore (-infty + ply) ls.alpha beta else ls.alpha

/-- The score at the end of `search`. -/
def searchScore (ply : Nat) (beta : Int) (ls : MoveLoop) : Int :=
  let matescore : Int := if ls.node.incheck then -infty + ply else draw
  if env.failsoft then (if ls.moves = 0 then matescore else ls.bestscore)
  else if ls.moves = 0 then boundScore matescore ls.alpha beta else ls.alpha

/-- **The runs of a search**: the task, the stop flag before, the trace, the stop flag after
and the result. -/
inductive Runs : Task → Bool → List Event → Bool → Result → Prop
  | quiesce {node ply alpha beta s es s' n r} :
    Runs (.quiesceBody node ply alpha beta) s es s' (.ret n r) →
      Runs (.quiesce node ply alpha beta) s (es ++ [.returned .quiesce alpha beta r s']) s' (.ret n r)
  | quiesceHit {node ply alpha beta s n score} :
    Probes env hashed node 0 alpha beta (n, some score) →
      Runs (.quiesceBody node ply alpha beta) s [] s (.ret n ⟨score, false⟩)
  | quiesceCut {node ply alpha beta s n t} :
    Probes env hashed node 0 alpha beta (n, none) → env.eval t n.board alpha beta ≥ beta →
      Runs (.quiesceBody node ply alpha beta) s [] s
        (.ret n ⟨if env.failsoft then env.eval t n.board alpha beta else beta, false⟩)
  | quiesceLeaf {node ply alpha beta s n t} :
    Probes env hashed node 0 alpha beta (n, none) → env.eval t n.board alpha beta < beta →
      ply = maxply - 1 →
      Runs (.quiesceBody node ply alpha beta) s
        [.evaluated alpha (env.eval t n.board alpha beta) s] s
        (.ret n ⟨env.eval t n.board alpha beta, false⟩)
  | quiesceAbort {node ply alpha beta s n t history n' es s' ls} :
    Probes env hashed node 0 alpha beta (n, none) → env.eval t n.board alpha beta < beta →
      ply ≠ maxply - 1 → ({ n with type := .quiesce } : Node).start env.beyond history = some n' →
      Runs (.loop (.quiesce ply beta)
        ⟨n', max (env.eval t n.board alpha beta) alpha,
          if env.failsoft then env.eval t n.board alpha beta else -infty, 0, true⟩)
        s es s' (.looped ls true) →
      Runs (.quiesceBody node ply alpha beta) s es s' (.ret ls.node .abort)
  | quiesceDone {node ply alpha beta s n t history n' es s' ls} :
    Probes env hashed node 0 alpha beta (n, none) → env.eval t n.board alpha beta < beta →
      ply ≠ maxply - 1 → ({ n with type := .quiesce } : Node).start env.beyond history = some n' →
      Runs (.loop (.quiesce ply beta)
        ⟨n', max (env.eval t n.board alpha beta) alpha,
          if env.failsoft then env.eval t n.board alpha beta else -infty, 0, true⟩)
        s es s' (.looped ls false) →
      Runs (.quiesceBody node ply alpha beta) s (es ++ [.wrote .hash ls.node.tainted]) s'
        (.ret ls.node ⟨quiesceScore env ply beta ls, false⟩)
  | search {node ply depth alpha beta s es s' n r} :
    Runs (.searchBody node ply depth alpha beta) s es s' (.ret n r) →
      Runs (.search node ply depth alpha beta) s (es ++ [.returned .search alpha beta r s']) s'
        (.ret n r)
  | searchLeaf {node ply depth alpha beta s es s' n r} : depth ≤ 0 →
      Runs (.quiesce node ply alpha beta) s es s' (.ret n r) →
      Runs (.searchBody node ply depth alpha beta) s es s' (.ret n r)
  | searchDraw {node ply depth alpha beta s drawscore} : 0 < depth → node.isDraw = some drawscore →
      Runs (.searchBody node ply depth alpha beta) s [] s
        (.ret node ⟨if env.failsoft then drawscore else boundScore drawscore alpha beta, false⟩)
  | searchHit {node ply depth alpha beta s n score} : 0 < depth →
      Probes env hashed node depth alpha beta (n, some score) →
      Runs (.searchBody node ply depth alpha beta) s [] s (.ret n ⟨score, false⟩)
  | searchNull {node ply depth alpha beta s n es s' score} : 0 < depth →
      Probes env hashed node depth alpha beta (n, none) →
      Runs (.null n ply depth beta) s es s' (.cut (some score)) →
      Runs (.searchBody node ply depth alpha beta) s es s' (.ret n ⟨score, false⟩)
  | searchMain {node ply depth alpha beta s n es₁ s₁ n₂ es₂ s₂ es₃ s₃ n₃ r} : 0 < depth →
      Probes env hashed node depth alpha beta (n, none) →
      Runs (.null n ply depth beta) s es₁ s₁ (.cut none) →
      Runs (.deepen n ply depth alpha beta) s₁ es₂ s₂ (.node n₂) →
      Runs (.moves n₂ ply depth alpha beta) s₂ es₃ s₃ (.ret n₃ r) →
      Runs (.searchBody node ply depth alpha beta) s (es₁ ++ (es₂ ++ es₃)) s₃ (.ret n₃ r)
  | nullSkip {node ply depth beta s} : Runs (.null node ply depth beta) s [] s (.cut none)
  | nullDone {node : Node} {ply depth beta s slot es s' n r} : node.incheck = false →
      Runs (.search (node.makeMove .null slot) (ply + 1) (depth - 2 - 1) (-beta) (-beta + 1))
        s es s' (.ret n r) →
      Runs (.null node ply depth beta) s es s' (.cut (if r.negate.score ≥ beta then
        some (if env.failsoft then r.negate.score else beta) else none))
  | deepenSkip {node ply depth alpha beta s} :
      Runs (.deepen node ply depth alpha beta) s [] s (.node node)
  | deepenDone {node ply depth alpha beta s es s' n r} : 2 < depth →
      Runs (.search node ply (depth - 2) alpha beta) s es s' (.ret n r) →
      Runs (.deepen node ply depth alpha beta) s es s' (.node { n with hashmv := n.getBestMove })
  | movesAbort {node : Node} {ply depth alpha beta s history n es s' ls} :
      ({ node with type := .fullwidth, historytable := some node.board.side } : Node).start
        env.beyond history = some n →
      Runs (.loop (.search ply (mainDepth node depth alpha) (fprune node depth alpha) beta)
        ⟨n, alpha, -infty, 0, true⟩) s es s' (.looped ls true) →
      Runs (.moves node ply depth alpha beta) s es s' (.ret ls.node .abort)
  | movesDone {node : Node} {ply depth alpha beta s history n es s' ls} {n' : Node} :
      ({ node with type := .fullwidth, historytable := some node.board.side } : Node).start
        env.beyond history = some n →
      Runs (.loop (.search ply (mainDepth node depth alpha) (fprune node depth alpha) beta)
        ⟨n, alpha, -infty, 0, true⟩) s es s' (.looped ls false) →
      n' = ls.node ∨ n' = ls.node.addKiller ls.node.getBestMove →
      Runs (.moves node ply depth alpha beta) s
        (es ++ (.looped ls.node depth alpha :: .wrote .hash ls.node.tainted ::
          (historyEvents ls.node ++ killerEvents ls.node))) s'
        (.ret n' ⟨searchScore env ply beta ls, false⟩)
  | rootAbort {node : Node} {depth alpha beta s history n es s' ls} :
      node.start env.beyond history = some n →
      Runs (.loop (.root depth beta) ⟨n, alpha, -infty, 0, true⟩) s es s' (.looped ls true) →
      Runs (.root node depth alpha beta) s (es ++ [.returned .root alpha beta .abort s']) s'
        (.ret ls.node .abort)
  | rootDone {node : Node} {depth alpha beta s history n es s' ls score} :
      node.start env.beyond history = some n →
      Runs (.loop (.root depth beta) ⟨n, alpha, -infty, 0, true⟩) s es s' (.looped ls false) →
      score = (if env.failsoft then ls.bestscore else ls.alpha) →
      Runs (.root node depth alpha beta) s
        (es ++ (historyEvents ls.node ++ [.returned .root alpha beta ⟨score, false⟩ s'])) s'
        (.ret ls.node ⟨score, false⟩)
  | loopEnd {k ls s} : ls.node.pick.2 = .noMove →
      Runs (.loop k ls) s [] s (.looped { ls with node := ls.node.pick.1 } false)
  | loopNext {k ls s es₁ s₁ ls' es₂ s₂ ls'' aborted} : ls.node.pick.2 ≠ .noMove →
      Runs (.visit k { ls with node := ls.node.pick.1 } ls.node.pick.2) s es₁ s₁ (.step (.next ls')) →
      Runs (.loop k ls') s₁ es₂ s₂ (.looped ls'' aborted) →
      Runs (.loop k ls) s (es₁ ++ es₂) s₂ (.looped ls'' aborted)
  | loopCut {k ls s es s' ls'} : ls.node.pick.2 ≠ .noMove →
      Runs (.visit k { ls with node := ls.node.pick.1 } ls.node.pick.2) s es s' (.step (.cut ls')) →
      Runs (.loop k ls) s es s' (.looped ls' false)
  | loopAbort {k ls s es s' ls'} : ls.node.pick.2 ≠ .noMove →
      Runs (.visit k { ls with node := ls.node.pick.1 } ls.node.pick.2) s es s' (.step (.abort ls')) →
      Runs (.loop k ls) s es s' (.looped ls' true)
  | illegal {k} {ls : MoveLoop} {mov s slot} : (ls.node.makeMove mov slot).board.isLegal = false →
      Runs (.visit k ls mov) s [] s (.step (.next ls))
  | skipped {k} {ls : MoveLoop} {mov s slot} : (ls.node.makeMove mov slot).board.isLegal = true →
      skipped k.fprune ls.node (ls.node.makeMove mov slot) mov = true →
      Runs (.visit k ls mov) s [] s (.step (.next { ls with moves := ls.moves + 1 }))
  | late {k ls mov s es s' st} : Runs (.visit k ls mov) true es s' (.step st) →
      Runs (.visit k ls mov) s es s' (.step st)
  | visitAbort {k} {ls : MoveLoop} {mov s slot line es s' n r} :
      (ls.node.makeMove mov slot).board.isLegal = true →
      skipped k.fprune ls.node (ls.node.makeMove mov slot) mov = false →
      Runs (.scout k { ls.node.makeMove mov slot with pvline := line } ls.alpha) s es s' (.ret n r) →
      Runs (.visit k ls mov) s es true (.step (.abort (ls.enter.taint r)))
  | visitCut {k} {ls ls' : MoveLoop} {mov s slot line es s' n r} :
      (ls.node.makeMove mov slot).board.isLegal = true →
      skipped k.fprune ls.node (ls.node.makeMove mov slot) mov = false →
      Runs (.scout k { ls.node.makeMove mov slot with pvline := line } ls.alpha) s es s' (.ret n r) →
      s' = false → r.score ≥ k.beta →
      ls' = { ls.enter.taint r with node := k.note r.score (ls.enter.taint r).node } →
      Runs (.visit k ls mov) s (es ++ ls'.takeEvents mov n r) false (.step (.cut (ls'.take mov n r)))
  | visitNext {k} {ls ls' : MoveLoop} {mov s slot line es s' n r} :
      (ls.node.makeMove mov slot).board.isLegal = true →
      skipped k.fprune ls.node (ls.node.makeMove mov slot) mov = false →
      Runs (.scout k { ls.node.makeMove mov slot with pvline := line } ls.alpha) s es s' (.ret n r) →
      s' = false → r.score < k.beta →
      ls' = { ls.enter.taint r with node := k.note r.score (ls.enter.taint r).node } →
      Runs (.visit k ls mov) s (es ++ ls'.takeEvents mov n r) false (.step (.next (ls'.take mov n r)))
  | scoutFull {k child alpha s es s' n r} :
      Runs (k.call child (-k.beta) (-alpha)) s es s' (.ret n r) →
      Runs (.scout k child alpha) s es s' (.ret n r.negate)
  | scoutNull {k child alpha s es s' n r} :
      Runs (k.call child (-alpha - 1) (-alpha)) s es s' (.ret n r) →
      ¬ (r.negate.score > alpha ∧ r.negate.score < k.beta) →
      Runs (.scout k child alpha) s es s' (.ret n r.negate)
  | scoutAgain {k child alpha s es₁ s₁ n₁ r₁ es₂ s₂ n₂ r₂} :
      Runs (k.call child (-alpha - 1) (-alpha)) s es₁ s₁ (.ret n₁ r₁) →
      r₁.negate.score > alpha → r₁.negate.score < k.beta →
      Runs (k.call n₁ (-k.beta) (-alpha)) s₁ es₂ s₂ (.ret n₂ r₂) →
      Runs (.scout k child alpha) s (es₁ ++ es₂) s₂
        (.ret n₂ ⟨r₂.negate.score, r₁.aborted || r₂.aborted⟩)

end Relation

/-! ## The functions refine the relation -/

/-- The stop flag and the trace are observed; a run without a hash table never gets one. -/
def observe (hashed : Bool) : Observation SearchState Bool Event where
  view st := st.stop
  log st := st.trace
  inv st := hashed = true ∨ st.hashtable = none

section Primitives

variable {hashed : Bool}

/-- A run with a known outcome. -/
theorem refines_of_done {α : Type} {m : SearchM α} {R : Bool → List Event → Bool → α → Prop}
    (h : ∀ st, (hashed = true ∨ st.hashtable = none) → ∃ a st' es, m st = .done a st' ∧
      (hashed = true ∨ st'.hashtable = none) ∧ st'.trace = st.trace ++ es ∧
        R st.stop es st'.stop a) : Refines (observe hashed) m R := by
  intro st a st' hm hinv
  obtain ⟨a₁, st₁, es, hd, hinv', htrace, hR⟩ := h st hinv
  rw [hd] at hm
  cases hm
  exact ⟨hinv', es, htrace, hR⟩

theorem get_refines : Refines (observe hashed) get
    (fun v es v' st => v' = v ∧ es = [] ∧ st.stop = v) :=
  refines_of_done fun _ h => ⟨_, _, [], rfl, h, (List.append_nil _).symm, rfl, rfl, rfl⟩

theorem readStop_refines (env : SearchEnv) : Refines (observe hashed) (readStop env)
    (fun v es v' a => es = [] ∧ v' = a ∧ (v = true → v' = true)) :=
  refines_of_done fun st h => by
    refine ⟨_, _, [], rfl, h, (List.append_nil _).symm, rfl, rfl, fun hv => ?_⟩
    show (st.stop || env.interrupted st.tick) = true
    rw [hv, Bool.true_or]

/-- Checking the time may set the flag. -/
theorem checkTime_refines (env : SearchEnv) (force : Bool) : Refines (observe hashed)
    (checkTime env force) (fun v es v' _ => es = [] ∧ (v = true → v' = true)) := by
  refine refines_of_done fun st h => ?_
  by_cases hskip : st.nodesFullwidth + st.nodesQuiesce < st.nextTimecheckNodes ∧ force = false
  · refine ⟨(), st, [], ?_, h, (List.append_nil _).symm, rfl, id⟩
    show (if st.nodesFullwidth + st.nodesQuiesce < st.nextTimecheckNodes ∧ force = false then
      (pure () : SearchM Unit) else checkClock env force) st = _
    rw [if_pos hskip]
    rfl
  have hclock : checkTime env force st = checkClock env force st := by
    show (if st.nodesFullwidth + st.nodesQuiesce < st.nextTimecheckNodes ∧ force = false then
      (pure () : SearchM Unit) else checkClock env force) st = _
    rw [if_neg hskip]
  rw [hclock]
  by_cases htimeout : env.timeout st.tick = true
  · refine ⟨(), { st with tick := st.tick + 1, stop := true }, [], ?_, h,
      (List.append_nil _).symm, rfl, fun _ => rfl⟩
    show (if env.timeout st.tick = true then _ else _ : SearchM Unit)
      { st with tick := st.tick + 1 } = _
    rw [if_pos htimeout]
    rfl
  · have hgo : ∃ st', checkClock env force st = .done () st' ∧ st'.hashtable = st.hashtable ∧
        st'.trace = st.trace ∧ st'.stop = st.stop := by
      show ∃ st', (if env.timeout st.tick = true then _ else _ : SearchM Unit)
        { st with tick := st.tick + 1 } = _ ∧ _
      rw [if_neg htimeout]
      cases force <;> exact ⟨_, rfl, rfl, rfl, rfl⟩
    obtain ⟨st', hd, htable, htrace, hstop⟩ := hgo
    refine ⟨(), st', [], hd, by rwa [htable], by rw [htrace, List.append_nil], rfl, fun hv => ?_⟩
    rw [hstop]
    exact hv

theorem eval_refines (env : SearchEnv) (board : Board) (alpha beta : Int) :
    Refines (observe hashed) (eval env board alpha beta)
      (fun v es v' a => v' = v ∧ es = [] ∧ ∃ t, a = env.eval t board alpha beta) :=
  refines_of_done fun _ h => ⟨_, _, [], rfl, h, (List.append_nil _).symm, rfl, rfl, _, rfl⟩

theorem emit_refines (e : Event) :
    Refines (observe hashed) (emit e) (fun v es v' _ => v' = v ∧ es = [e]) :=
  refines_of_done fun _ h => ⟨_, _, [e], rfl, h, rfl, rfl, rfl⟩

theorem free_refines (node : Node) :
    Refines (observe hashed) (free node) (fun v es v' _ => v' = v ∧ es = []) :=
  refines_of_done fun _ h => ⟨_, _, [], rfl, h, (List.append_nil _).symm, rfl, rfl⟩

theorem store_refines (node : Node) (depth alpha beta score : Int) : Refines (observe hashed)
    (store node depth alpha beta score)
    (fun v es v' _ => v' = v ∧ es = [.wrote .hash node.tainted]) :=
  refines_of_done fun st h => by
    refine ⟨_, _, [.wrote .hash node.tainted], rfl, ?_, rfl, rfl, rfl⟩
    refine h.imp id fun hn => ?_
    show storeHashtable st.hashtable node depth alpha beta score = none
    rw [hn]
    rfl

theorem addHistory_refines (node : Node) : Refines (observe hashed) (addHistory node)
    (fun v es v' _ => v' = v ∧ es = historyEvents node) := by
  unfold addHistory historyEvents
  split
  · exact refines_of_done fun _ h => ⟨_, _, [], rfl, h, (List.append_nil _).symm, rfl, rfl⟩
  · exact refines_of_done fun _ h => ⟨_, _, _, rfl, h, rfl, rfl, rfl⟩

theorem addKiller_refines (node : Node) : Refines (observe hashed) (addKiller node)
    (fun v es v' n => v' = v ∧ es = killerEvents node ∧
      (n = node ∨ n = node.addKiller node.getBestMove)) := by
  unfold addKiller killerEvents
  simp only
  split
  · exact refines_of_done fun _ h => ⟨_, _, _, rfl, h, rfl, rfl, rfl, Or.inr rfl⟩
  · exact refines_of_done fun _ h => ⟨_, _, [], rfl, h, (List.append_nil _).symm, rfl, rfl, Or.inl rfl⟩

section Tree

variable [Build] (env : SearchEnv)

theorem makeMove_refines (node : Node) (mov : Move) : Refines (observe hashed) (makeMove node mov)
    (fun v es v' a => v' = v ∧ es = [] ∧ ∃ slot, a = node.makeMove mov slot) := by
  intro st a st' h hinv
  have h : (if st.nextSlot < maxply then _ else bug : SearchM Node) st = .done a st' := h
  split at h
  · cases h
    exact ⟨hinv, [], (List.append_nil _).symm, rfl, rfl, _, rfl⟩
  · exact absurd h bug_ne_done

theorem probe_refines (node : Node) (depth alpha beta : Int) : Refines (observe hashed)
    (probe env node depth alpha beta)
    (fun v es v' a => v' = v ∧ es = [] ∧ Probes env hashed node depth alpha beta a) :=
  refines_of_done fun st h => ⟨_, _, [], rfl, h, (List.append_nil _).symm, rfl, rfl, st.hashtable, h, rfl⟩

theorem start_refines (node : Node) : Refines (observe hashed) (start env node)
    (fun v es v' n => v' = v ∧ es = [] ∧ ∃ history, node.start env.beyond history = some n) := by
  intro st a st' h hinv
  obtain ⟨st₁, st₂, hget, h⟩ := bind_eq_done.mp h
  obtain ⟨rfl, rfl⟩ := get_eq_done.mp hget
  cases hn : node.start env.beyond st.histtable with
  | none =>
    simp only [hn] at h
    exact absurd h bug_ne_done
  | some n =>
    simp only [hn] at h
    obtain ⟨rfl, rfl⟩ := pure_eq_done.mp h
    exact ⟨hinv, [], (List.append_nil _).symm, rfl, rfl, _, hn⟩

end Tree

end Primitives

section Composite

variable {env : SearchEnv} {hashed : Bool}

theorem updateBest_refines (ls : MoveLoop) (mov : Move) (child : Node) (r : Ret) :
    Refines (observe hashed) (updateBest ls mov child r) (fun v es v' a => v' = v ∧
      es = (if r.score > ls.bestscore then
        [.wrote .best r.aborted, .bestLine ls.node.board (ls.node.setBest mov child).bestLine]
        else []) ∧
      a = { ls with
        node := if r.score > ls.bestscore then ls.node.setBest mov child else ls.node
        bestscore := if r.score > ls.bestscore then r.score else ls.bestscore }) := by
  unfold updateBest
  split
  · exact refines_of_done fun st h => ⟨_, _, _, rfl, h, List.append_assoc _ _ _, rfl, rfl, rfl⟩
  · exact refines_of_done fun st h => ⟨_, _, [], rfl, h, (List.append_nil _).symm, rfl, rfl, rfl⟩

theorem updateAlpha_refines (ls : MoveLoop) (r : Ret) :
    Refines (observe hashed) (updateAlpha ls r) (fun v es v' a => v' = v ∧
      es = (if r.score > ls.alpha then [.wrote .alpha r.aborted] else []) ∧
      a = { ls with alpha := if r.score > ls.alpha then r.score else ls.alpha }) := by
  unfold updateAlpha
  split
  · exact refines_of_done fun st h => ⟨_, _, _, rfl, h, rfl, rfl, rfl, rfl⟩
  · exact refines_of_done fun st h => ⟨_, _, [], rfl, h, (List.append_nil _).symm, rfl, rfl, rfl⟩

/-- The two ways on after the search of a child. -/
inductive Concludes (ls : MoveLoop) (mov : Move) (child : Node) (r : Ret) (beta : Int)
    (note : Node → Node) : Bool → List Event → Bool → LoopStep → Prop
  | abort {v} : Concludes ls mov child r beta note v [] true (.abort (ls.taint r))
  | cut {ls'} : r.score ≥ beta → ls' = { ls.taint r with node := note (ls.taint r).node } →
      Concludes ls mov child r beta note false (ls'.takeEvents mov child r) false
        (.cut (ls'.take mov child r))
  | next {ls'} : r.score < beta → ls' = { ls.taint r with node := note (ls.taint r).node } →
      Concludes ls mov child r beta note false (ls'.takeEvents mov child r) false
        (.next (ls'.take mov child r))

theorem conclude_refines (ls : MoveLoop) (mov : Move) (child : Node) (r : Ret) (beta : Int)
    (note : Node → Node) : Refines (observe hashed) (conclude env ls mov child r beta note)
      (Concludes ls mov child r beta note) := by
  refine ((readStop_refines env).bind (S := fun stopped v es v' st => v = stopped →
      Concludes ls mov child r beta note v es v' st) fun stopped => ?_).mono ?_
  · cases stopped with
    | true =>
      refine ((free_refines child).bind fun _ => Refines.pure _).mono ?_
      rintro v es v' st ⟨_, v₁, _, _, rfl, ⟨rfl, rfl⟩, rfl, rfl, rfl⟩ rfl
      exact .abort
    | false =>
      refine ((updateBest_refines _ mov child r).bind fun ls₁ => (free_refines child).bind fun _ =>
        (updateAlpha_refines ls₁ r).bind (S := fun ls₂ v es v' st => v' = v ∧ es = [] ∧
          (r.score ≥ beta ∧ st = .cut ls₂ ∨ r.score < beta ∧ st = .next ls₂)) fun ls₂ => ?_).mono ?_
      · refine .ite (fun h => (Refines.pure _).mono ?_) fun h => (Refines.pure _).mono ?_
        · rintro v es v' st ⟨rfl, rfl, rfl⟩
          exact ⟨rfl, rfl, Or.inl ⟨h, rfl⟩⟩
        · rintro v es v' st ⟨rfl, rfl, rfl⟩
          exact ⟨rfl, rfl, Or.inr ⟨not_le.mp h, rfl⟩⟩
      · rintro v es v' st ⟨ls₁, v₁, _, _, rfl, ⟨rfl, rfl, rfl⟩, _, v₂, _, _, rfl, ⟨rfl, rfl⟩, ls₂, v₃,
          _, _, rfl, ⟨rfl, rfl, rfl⟩, rfl, rfl, hend⟩ rfl
        rw [List.nil_append, List.append_nil]
        rcases hend with ⟨h, rfl⟩ | ⟨h, rfl⟩
        · exact .cut h rfl
        · exact .next h rfl
  · rintro v es v' st ⟨stopped, v₁, _, _, rfl, ⟨rfl, rfl, hmono⟩, h⟩
    have hc := h rfl
    rw [List.nil_append]
    cases v₁ with
    | true =>
      cases hc with
      | abort => exact .abort
    | false =>
      cases v with
      | false => exact hc
      | true => exact absurd (hmono rfl) Bool.false_ne_true

theorem finishQuiesce_refines (ply : Nat) (saveAlpha beta : Int) (ls : MoveLoop) :
    Refines (observe hashed) (finishQuiesce env ply saveAlpha beta ls) (fun v es v' p =>
      v' = v ∧ es = [.wrote .hash ls.node.tainted] ∧
        p = (ls.node, ⟨quiesceScore env ply beta ls, false⟩)) := by
  refine ((store_refines ls.node 0 saveAlpha beta _).bind fun _ => Refines.pure _).mono ?_
  rintro v es v' p ⟨_, v₁, _, _, rfl, ⟨rfl, rfl⟩, rfl, rfl, rfl⟩
  refine ⟨rfl, rfl, ?_⟩
  unfold quiesceScore
  cases (decide (ls.moves = 0) && ls.node.incheck) <;> cases env.failsoft <;> rfl

theorem finishSearch_refines (ply : Nat) (depth saveAlpha beta : Int) (ls : MoveLoop) :
    Refines (observe hashed) (finishSearch env ply depth saveAlpha beta ls) (fun v es v' p =>
      v' = v ∧
      es = .wrote .hash ls.node.tainted :: (historyEvents ls.node ++ killerEvents ls.node) ∧
      (p.1 = ls.node ∨ p.1 = ls.node.addKiller ls.node.getBestMove) ∧
      p.2 = ⟨searchScore env ply beta ls, false⟩) := by
  refine ((store_refines ls.node depth saveAlpha beta _).bind fun _ =>
    (addHistory_refines ls.node).bind fun _ => (addKiller_refines ls.node).bind fun node =>
      Refines.pure (node, _)).mono ?_
  rintro v es v' p ⟨_, v₂, _, _, rfl, ⟨rfl, rfl⟩, _, v₃, _, _, rfl,
    ⟨rfl, rfl⟩, n, v₄, _, _, rfl, ⟨rfl, rfl, hn⟩, rfl, rfl, rfl⟩
  refine ⟨rfl, by simp, hn, ?_⟩
  unfold searchScore
  by_cases hm : ls.moves = 0 <;> cases env.failsoft <;> simp [hm]

theorem exists_withLine (map : Move → Option PvLine) (mov : Move) (child : Node) :
    ∃ line, withLine map mov child = { child with pvline := line } := by
  unfold withLine
  split
  · exact ⟨_, rfl⟩
  · exact ⟨child.pvline, rfl⟩

theorem returning_refines {m : SearchM (Node × Ret)} {R : Bool → List Event → Bool → Node × Ret → Prop}
    (hm : Refines (observe hashed) m R) (caller : Caller) (alpha beta : Int) :
    Refines (observe hashed) (returning caller alpha beta m) (fun v es v' p =>
      ∃ es₁, es = es₁ ++ [.returned caller alpha beta p.2 v'] ∧ R v es₁ v' p) := by
  refine (hm.bind fun p => get_refines.bind fun st =>
    (emit_refines (.returned caller alpha beta p.2 st.stop)).bind fun _ => Refines.pure p).mono ?_
  rintro v es v' p ⟨p, v₁, es₁, _, rfl, hR, st, v₂, _, _, rfl, ⟨rfl, rfl, hst⟩, _, v₃, _, _, rfl,
    ⟨rfl, rfl⟩, rfl, rfl, rfl⟩
  rw [List.nil_append, List.append_nil, hst]
  exact ⟨es₁, rfl, hR⟩

variable [Build]

/-- What is left of a loop after a visit. -/
def AfterVisit (env : SearchEnv) (hashed : Bool) (k : LoopKind) :
    LoopStep → Bool → List Event → Bool → MoveLoop × Bool → Prop
  | .next ls, v, es, v', p => Runs env hashed (.loop k ls) v es v' (.looped p.1 p.2)
  | .cut ls, v, es, v', p => v' = v ∧ es = [] ∧ p = (ls, false)
  | .abort ls, v, es, v', p => v' = v ∧ es = [] ∧ p = (ls, true)

theorem moveLoop_refines {k : LoopKind} {visit : MoveLoop → Move → SearchM LoopStep}
    (hvisit : ∀ ls mov, Refines (observe hashed) (visit ls mov)
      (fun v es v' st => Runs env hashed (.visit k ls mov) v es v' (.step st))) (n : Nat)
    (ls : MoveLoop) : Refines (observe hashed) (moveLoop visit n ls)
      (fun v es v' p => Runs env hashed (.loop k ls) v es v' (.looped p.1 p.2)) := by
  induction n generalizing ls with
  | zero => exact Refines.outOfFuel
  | succ n ih =>
    refine .ite (fun h => (Refines.pure _).mono ?_) fun h => ((hvisit _ _).bind
      (S := AfterVisit env hashed k) fun st => ?_).mono ?_
    · rintro v es v' p ⟨rfl, rfl, rfl⟩
      exact .loopEnd h
    · cases st with
      | next ls' => exact ih ls'
      | cut ls' => exact Refines.pure _
      | abort ls' => exact Refines.pure _
    · rintro v es v' p ⟨st, v₁, es₁, es₂, rfl, hv, hrest⟩
      cases st with
      | next ls' => exact .loopNext h hv hrest
      | cut ls' =>
        obtain ⟨rfl, rfl, rfl⟩ := hrest
        rw [List.append_nil]
        exact .loopCut h hv
      | abort ls' =>
        obtain ⟨rfl, rfl, rfl⟩ := hrest
        rw [List.append_nil]
        exact .loopAbort h hv

/-- What a visit does once its child has been searched. -/
theorem visit_searched {k : LoopKind} {ls : MoveLoop} {mov : Move} {slot : Option Color}
    {line : PvLine} {m : SearchM (Node × Ret)} {between : Node × Ret → SearchM Unit}
    (hl : (ls.node.makeMove mov slot).board.isLegal = true)
    (hs : skipped k.fprune ls.node (ls.node.makeMove mov slot) mov = false)
    (hm : Refines (observe hashed) m (fun v es v' p => Runs env hashed
      (.scout k { ls.node.makeMove mov slot with pvline := line } ls.alpha) v es v' (.ret p.1 p.2)))
    (hb : ∀ p, Refines (observe hashed) (between p)
      (fun v es v' _ => es = [] ∧ (v = true → v' = true))) :
    Refines (observe hashed) (m >>= fun p => between p >>= fun _ =>
      conclude env ls.enter mov p.1 p.2 k.beta (k.note p.2.score))
      (fun v es v' st => Runs env hashed (.visit k ls mov) v es v' (.step st)) := by
  refine (hm.bind fun p => (hb p).bind fun _ => conclude_refines _ mov p.1 p.2 _ _).mono ?_
  rintro v es v' st ⟨p, v₁, es₁, _, rfl, hscout, _, v₂, _, es₃, rfl, ⟨rfl, hmono⟩, hend⟩
  rw [List.nil_append]
  have hfalse : v₂ = false → v₁ = false := by
    intro h₂
    cases v₁ with
    | false => rfl
    | true => rw [hmono rfl] at h₂; exact h₂
  cases hend with
  | abort =>
    rw [List.append_nil]
    exact .visitAbort hl hs hscout
  | cut hscore hls => exact .visitCut hl hs hscout (hfalse rfl) hscore hls
  | next hscore hls => exact .visitNext hl hs hscout (hfalse rfl) hscore hls

/-- The start of a visit: an illegal move is given up at once. -/
theorem visit_made {k : LoopKind} {ls : MoveLoop} {mov : Move} {f : Node → SearchM LoopStep}
    (hf : ∀ slot, (ls.node.makeMove mov slot).board.isLegal = true →
      Refines (observe hashed) (f (ls.node.makeMove mov slot))
        (fun v es v' st => Runs env hashed (.visit k ls mov) v es v' (.step st))) :
    Refines (observe hashed) (makeMove ls.node mov >>= fun child =>
      if !child.board.isLegal then free child >>= fun _ => pure (.next ls) else f child)
      (fun v es v' st => Runs env hashed (.visit k ls mov) v es v' (.step st)) := by
  refine ((makeMove_refines ls.node mov).bind_of (S := fun _ v es v' st =>
    Runs env hashed (.visit k ls mov) v es v' (.step st)) ?_).mono ?_
  · rintro child ⟨_, _, _, _, _, slot, rfl⟩
    by_cases hl : (ls.node.makeMove mov slot).board.isLegal = true
    · rw [hl]
      exact hf slot hl
    · have hl : (ls.node.makeMove mov slot).board.isLegal = false := Bool.not_eq_true _ ▸ hl
      rw [hl]
      refine ((free_refines _).bind fun _ => Refines.pure _).mono ?_
      rintro v es v' st ⟨_, v₁, _, _, rfl, ⟨rfl, rfl⟩, rfl, rfl, rfl⟩
      exact .illegal hl
  · rintro v es v' st ⟨child, v₁, _, es₂, rfl, ⟨rfl, rfl, _⟩, h⟩
    exact h

section Calls

variable {k : LoopKind} {rec : Node → Int → Int → SearchM (Node × Ret)}

/-- The recursive calls of a loop are runs of its children. -/
def Calls (env : SearchEnv) (hashed : Bool) (k : LoopKind)
    (rec : Node → Int → Int → SearchM (Node × Ret)) : Prop :=
  ∀ child a b, Refines (observe hashed) (rec child a b)
    (fun v es v' p => Runs env hashed (k.call child a b) v es v' (.ret p.1 p.2))

theorem negated_refines (hrec : Calls env hashed k rec) (child : Node) (a b : Int) :
    Refines (observe hashed) (negated rec child a b) (fun v es v' p =>
      ∃ r, Runs env hashed (k.call child a b) v es v' (.ret p.1 r) ∧ p.2 = r.negate) := by
  refine ((hrec child a b).bind fun p => Refines.pure (p.1, p.2.negate)).mono ?_
  rintro v es v' _ ⟨p, v₁, es₁, _, rfl, hrun, rfl, rfl, rfl⟩
  rw [List.append_nil]
  exact ⟨p.2, hrun, rfl⟩

theorem full_refines (hrec : Calls env hashed k rec) (child : Node) (alpha : Int) :
    Refines (observe hashed) (negated rec child (-k.beta) (-alpha)) (fun v es v' p =>
      Runs env hashed (.scout k child alpha) v es v' (.ret p.1 p.2)) := by
  refine (negated_refines hrec child _ _).mono ?_
  rintro v es v' ⟨n, _⟩ ⟨r, hrun, rfl⟩
  exact .scoutFull hrun

theorem scout_refines (hrec : Calls env hashed k rec) (child : Node) (first : Bool)
    (alpha saveAlpha : Int) : Refines (observe hashed) (scout env rec child first alpha saveAlpha k.beta)
      (fun v es v' p => Runs env hashed (.scout k child alpha) v es v' (.ret p.1 p.2)) := by
  refine .ite (fun _ => ?_) fun _ => full_refines hrec child alpha
  refine ((negated_refines hrec child _ _).bind (S := fun p v es v' q =>
    (p.2.score > alpha ∧ p.2.score < k.beta ∧ ∃ r, Runs env hashed
      (k.call p.1 (-k.beta) (-alpha)) v es v' (.ret q.1 r) ∧
        q.2 = ⟨r.negate.score, p.2.aborted || r.aborted⟩) ∨
    (¬ (p.2.score > alpha ∧ p.2.score < k.beta) ∧ v' = v ∧ es = [] ∧ q = p)) fun p => ?_).mono ?_
  · refine .ite (fun h => ?_) fun h => (Refines.pure p).mono fun v es v' q hq => Or.inr ⟨h, hq⟩
    refine ((negated_refines hrec p.1 _ _).bind fun q => Refines.pure (q.1, _)).mono ?_
    rintro v es v' _ ⟨q, v₁, es₁, _, rfl, ⟨r, hrun, hr⟩, rfl, rfl, rfl⟩
    rw [List.append_nil]
    refine Or.inl ⟨h.1, h.2, r, hrun, ?_⟩
    rw [hr]
    rfl
  · rintro v es v' ⟨n, r'⟩ ⟨⟨n₁, _⟩, v₁, es₁, es₂, rfl, ⟨r₁, hrun, rfl⟩, hnext⟩
    rcases hnext with ⟨h1, h2, r₂, hagain, rfl⟩ | ⟨h, rfl, rfl, hq⟩
    · have hrun : Runs env hashed (k.call child (-alpha - 1) (-alpha)) v es₁ v₁ (.ret n₁ r₁) := hrun
      have h := Runs.scoutAgain hrun h1 h2 hagain
      exact h
    · cases hq
      rw [List.append_nil]
      exact .scoutNull hrun h

end Calls

theorem visitQuiesce_refines {rec : Node → Int → Int → SearchM (Node × Ret)} {ply : Nat} {beta : Int}
    (hrec : Calls env hashed (.quiesce ply beta) rec) (ls : MoveLoop) (mov : Move) :
    Refines (observe hashed) (visitQuiesce env rec beta ls mov)
      (fun v es v' st => Runs env hashed (.visit (.quiesce ply beta) ls mov) v es v' (.step st)) :=
  visit_made fun _ hl => visit_searched (k := .quiesce ply beta)
    hl rfl (full_refines hrec _ _) fun _ => checkTime_refines env false

theorem visitSearch_refines {rec : Node → Int → Int → SearchM (Node × Ret)} {ply : Nat}
    {depth beta saveAlpha : Int} {fprune : Bool}
    (hrec : Calls env hashed (.search ply depth fprune beta) rec) (ls : MoveLoop) (mov : Move) :
    Refines (observe hashed) (visitSearch env rec fprune saveAlpha beta ls mov) (fun v es v' st =>
      Runs env hashed (.visit (.search ply depth fprune beta) ls mov) v es v' (.step st)) := by
  refine visit_made fun slot hl => .ite (fun hs => ?_) fun hs => ?_
  · refine ((free_refines _).bind fun _ => Refines.pure _).mono ?_
    rintro v es v' st ⟨_, v₁, _, _, rfl, ⟨rfl, rfl⟩, rfl, rfl, rfl⟩
    exact .skipped hl hs
  · exact visit_searched (k := .search ply depth fprune beta)
      hl (Bool.not_eq_true _ ▸ hs) (scout_refines hrec _ _ _ saveAlpha)
      fun _ => checkTime_refines env false

theorem visitRoot_refines {rec : Node → Int → Int → SearchM (Node × Ret)} {depth beta saveAlpha : Int}
    (hrec : Calls env hashed (.root depth beta) rec) (ls : MoveLoop) (mov : Move) :
    Refines (observe hashed) (visitRoot env rec saveAlpha beta ls mov)
      (fun v es v' st => Runs env hashed (.visit (.root depth beta) ls mov) v es v' (.step st)) := by
  refine ((makeMove_refines ls.node mov).bind_of (S := fun _ v es v' st =>
    Runs env hashed (.visit (.root depth beta) ls mov) v es v' (.step st)) ?_).mono ?_
  · rintro child ⟨_, _, _, _, _, slot, rfl⟩
    by_cases hl : (ls.node.makeMove mov slot).board.isLegal = true
    · rw [hl]
      refine (get_refines.bind fun st => ?_).mono (R := Seq _ fun _ v es v' st =>
        Runs env hashed (.visit (.root depth beta) ls mov) v es v' (.step st)) ?_
      · obtain ⟨line, hline⟩ := exists_withLine st.ply1PvlineMap mov (ls.node.makeMove mov slot)
        rw [hline]
        refine ((checkTime_refines env true).bind fun _ => visit_searched (k := .root depth beta)
          hl rfl (scout_refines hrec _ _ _ saveAlpha) fun p => ?_).mono ?_
        · exact refines_of_done fun _ h => ⟨_, _, [], rfl, h, (List.append_nil _).symm, rfl, id⟩
        · rintro v es v' st ⟨_, v₁, _, _, rfl, ⟨rfl, hmono⟩, hrun⟩
          cases v₁ with
          | true => exact .late hrun
          | false =>
            cases v with
            | false => exact hrun
            | true => exact absurd (hmono rfl) Bool.false_ne_true
      · rintro v es v' st ⟨_, v₁, _, _, rfl, ⟨rfl, rfl, _⟩, hrun⟩
        exact hrun
    · have hl : (ls.node.makeMove mov slot).board.isLegal = false := Bool.not_eq_true _ ▸ hl
      rw [hl]
      exact Refines.bug
  · rintro v es v' st ⟨child, v₁, _, es₂, rfl, ⟨rfl, rfl, _⟩, h⟩
    exact h

/-! ### Quiescence search -/

theorem quiesceMoves_refines {rec : Node → Nat → Int → Int → SearchM (Node × Ret)}
    (hrec : ∀ node ply a b, Refines (observe hashed) (rec node ply a b) (fun v es v' p =>
      Runs env hashed (.quiesce node ply a b) v es v' (.ret p.1 p.2)))
    {node n : Node} {ply : Nat} {alpha beta : Int} {t : Nat}
    (hprobe : Probes env hashed node 0 alpha beta (n, none))
    (hcut : env.eval t n.board alpha beta < beta) (hply : ply ≠ maxply - 1) :
    Refines (observe hashed) (quiesceMoves env (fun node => rec node (ply + 1)) n ply alpha beta
      (env.eval t n.board alpha beta)) (fun v es v' p =>
        Runs env hashed (.quiesceBody node ply alpha beta) v es v' (.ret p.1 p.2)) := by
  refine ((start_refines env _).bind_of (S := fun _ v es v' p =>
    Runs env hashed (.quiesceBody node ply alpha beta) v es v' (.ret p.1 p.2)) ?_).mono ?_
  · rintro n' ⟨_, _, _, _, _, history, hstart⟩
    have hcalls : Calls env hashed (.quiesce ply beta) (fun node => rec node (ply + 1)) :=
      fun child a b => hrec child (ply + 1) a b
    refine ((moveLoop_refines (visitQuiesce_refines hcalls) _ _).bind
      (S := fun (p : MoveLoop × Bool) v es v' q =>
        (p.2 = true ∧ v' = v ∧ es = [] ∧ q = (p.1.node, .abort)) ∨
        (p.2 = false ∧ v' = v ∧ es = [.wrote .hash p.1.node.tainted] ∧
          q = (p.1.node, ⟨quiesceScore env ply beta p.1, false⟩))) fun p => ?_).mono ?_
    · obtain ⟨ls, aborted⟩ := p
      refine .ite (fun h => (Refines.pure _).mono fun v es v' q hq => Or.inl ⟨h, hq⟩) fun h =>
        (finishQuiesce_refines ply alpha beta ls).mono fun v es v' q hq =>
          Or.inr ⟨Bool.not_eq_true _ ▸ h, hq⟩
    · rintro v es v' q ⟨⟨ls, _⟩, v₁, es₁, _, rfl, hloop, ⟨rfl, rfl, rfl, rfl⟩ | ⟨rfl, rfl, rfl, rfl⟩⟩
      · rw [List.append_nil]
        exact .quiesceAbort hprobe hcut hply hstart hloop
      · exact .quiesceDone hprobe hcut hply hstart hloop
  · rintro v es v' p ⟨_, v₁, _, _, rfl, ⟨rfl, rfl, _⟩, hrun⟩
    exact hrun

theorem quiesceBody_refines {rec : Node → Nat → Int → Int → SearchM (Node × Ret)}
    (hrec : ∀ node ply a b, Refines (observe hashed) (rec node ply a b) (fun v es v' p =>
      Runs env hashed (.quiesce node ply a b) v es v' (.ret p.1 p.2)))
    (node : Node) (ply : Nat) (alpha beta : Int) :
    Refines (observe hashed) (quiesceBody env rec node ply alpha beta) (fun v es v' p =>
      Runs env hashed (.quiesceBody node ply alpha beta) v es v' (.ret p.1 p.2)) := by
  have hcount : Refines (observe hashed) (modify (fun st =>
      { st with nodesQuiesce := st.nodesQuiesce + 1 })) (fun v es v' _ => v' = v ∧ es = []) :=
    refines_of_done fun _ h => ⟨_, _, [], rfl, h, (List.append_nil _).symm, rfl, rfl⟩
  refine (hcount.bind fun _ => (probe_refines env node 0 alpha beta).bind_of (S := fun _ v es v' p =>
    Runs env hashed (.quiesceBody node ply alpha beta) v es v' (.ret p.1 p.2)) ?_).mono ?_
  · rintro ⟨n, hit⟩ ⟨_, _, _, _, _, hprobe⟩
    cases hit with
    | some score =>
      refine (Refines.pure _).mono ?_
      rintro v es v' p ⟨rfl, rfl, rfl⟩
      exact .quiesceHit hprobe
    | none =>
      refine ((eval_refines env n.board alpha beta).bind_of (S := fun _ v es v' p =>
        Runs env hashed (.quiesceBody node ply alpha beta) v es v' (.ret p.1 p.2)) ?_).mono ?_
      · rintro score ⟨_, _, _, _, _, t, rfl⟩
        refine .ite (fun hcut => (Refines.pure _).mono ?_) fun hcut => .ite (fun hleaf =>
          (get_refines.bind_of (S := fun st v es v' p => st.stop = v →
            Runs env hashed (.quiesceBody node ply alpha beta) v es v' (.ret p.1 p.2)) ?_).mono ?_)
            fun hply => ?_
        · rintro v es v' p ⟨rfl, rfl, rfl⟩
          exact .quiesceCut hprobe hcut
        · rintro st ⟨v, _, _, _, _, hst⟩
          refine ((emit_refines _).bind fun _ => Refines.pure _).mono ?_
          rintro v es v' p ⟨_, v₁, _, _, rfl, ⟨rfl, rfl⟩, rfl, rfl, rfl⟩ rfl
          exact .quiesceLeaf hprobe (not_le.mp hcut) hleaf
        · rintro v es v' p ⟨st, v₁, _, _, rfl, ⟨rfl, rfl, hst⟩, hrun⟩
          exact hrun hst
        · exact quiesceMoves_refines hrec hprobe (not_le.mp hcut) hply
      · rintro v es v' p ⟨_, v₁, _, _, rfl, ⟨rfl, rfl, _⟩, hrun⟩
        exact hrun
  · rintro v es v' p ⟨_, v₁, _, _, rfl, ⟨rfl, rfl⟩, _, v₂, _, _, rfl, ⟨rfl, rfl, _⟩, hrun⟩
    exact hrun

/-- **Quiescence search refines the relation.** -/
theorem quiescenceSearch_refines (fuel : Nat) (node : Node) (ply : Nat) (alpha beta : Int) :
    Refines (observe hashed) (quiescenceSearch env fuel node ply alpha beta) (fun v es v' p =>
      Runs env hashed (.quiesce node ply alpha beta) v es v' (.ret p.1 p.2)) := by
  induction fuel generalizing node ply alpha beta with
  | zero => exact Refines.outOfFuel
  | succ fuel ih =>
    refine (returning_refines (quiesceBody_refines ih node ply alpha beta) _ _ _).mono ?_
    rintro v es v' p ⟨es₁, rfl, hrun⟩
    exact .quiesce hrun

/-! ### Full-width search -/

section FullWidth

variable {rec : Node → Nat → Int → Int → Int → SearchM (Node × Ret)}

/-- What a function that searches has to refine. -/
def Searches (env : SearchEnv) (hashed : Bool)
    (rec : Node → Nat → Int → Int → Int → SearchM (Node × Ret)) : Prop :=
  ∀ node ply depth a b, Refines (observe hashed) (rec node ply depth a b) (fun v es v' p =>
    Runs env hashed (.search node ply depth a b) v es v' (.ret p.1 p.2))

theorem searchMoves_refines (hrec : Searches env hashed rec) (node : Node) (ply : Nat)
    (depth alpha beta : Int) :
    Refines (observe hashed) (searchMoves env rec node ply depth alpha beta) (fun v es v' p =>
      Runs env hashed (.moves node ply depth alpha beta) v es v' (.ret p.1 p.2)) := by
  refine ((start_refines env _).bind_of (S := fun _ v es v' p =>
    Runs env hashed (.moves node ply depth alpha beta) v es v' (.ret p.1 p.2)) ?_).mono ?_
  · rintro n' ⟨_, _, _, _, _, history, hstart⟩
    have hcalls : Calls env hashed
        (.search ply (mainDepth node depth alpha) (fprune node depth alpha) beta)
        (fun child => rec child (ply + 1) (mainDepth node depth alpha - 1)) :=
      fun child a b => hrec child (ply + 1) (mainDepth node depth alpha - 1) a b
    refine ((moveLoop_refines (visitSearch_refines hcalls) _ _).bind
      (S := fun (p : MoveLoop × Bool) v es v' q =>
        (p.2 = true ∧ v' = v ∧ es = [] ∧ q = (p.1.node, .abort)) ∨
        (p.2 = false ∧ v' = v ∧
          es = .looped p.1.node depth alpha :: .wrote .hash p.1.node.tainted ::
            (historyEvents p.1.node ++ killerEvents p.1.node) ∧
          (q.1 = p.1.node ∨ q.1 = p.1.node.addKiller p.1.node.getBestMove) ∧
          q.2 = ⟨searchScore env ply beta p.1, false⟩)) fun p => ?_).mono ?_
    · obtain ⟨ls, aborted⟩ := p
      refine .ite (fun h => (Refines.pure _).mono fun v es v' q hq => Or.inl ⟨h, hq⟩) fun h =>
        ((emit_refines _).bind fun _ => finishSearch_refines ply _ alpha beta ls).mono ?_
      rintro v es v' q ⟨_, v₁, _, _, rfl, ⟨rfl, rfl⟩, rfl, rfl, hq⟩
      exact Or.inr ⟨Bool.not_eq_true _ ▸ h, rfl, rfl, hq⟩
    · rintro v es v' ⟨n, r⟩ ⟨⟨ls, _⟩, v₁, es₁, _, rfl, hloop, ⟨rfl, rfl, rfl, hq⟩ | ⟨rfl, rfl, rfl, hn, rfl⟩⟩
      · cases hq
        rw [List.append_nil]
        exact .movesAbort hstart hloop
      · exact .movesDone hstart hloop hn
  · rintro v es v' p ⟨_, v₁, _, _, rfl, ⟨rfl, rfl, _⟩, hrun⟩
    exact hrun

theorem nullMove_refines (hrec : Searches env hashed rec) (node : Node) (ply : Nat)
    (depth beta : Int) :
    Refines (observe hashed) (nullMove env rec node ply depth beta) (fun v es v' cut =>
      Runs env hashed (.null node ply depth beta) v es v' (.cut cut)) := by
  unfold nullMove
  split
  · exact Refines.bug
  · rename_i parent _ _
    refine .ite (fun h => ?_) fun _ => (Refines.pure none).mono ?_
    · have hcheck : node.incheck = false := by
        cases hi : node.incheck with
        | false => rfl
        | true => simp [hi] at h
      refine ((makeMove_refines node .null).bind_of (S := fun _ v es v' cut =>
        Runs env hashed (.null node ply depth beta) v es v' (.cut cut)) ?_).mono ?_
      · rintro child ⟨_, _, _, _, _, slot, rfl⟩
        refine ((hrec _ (ply + 1) (depth - 2 - 1) (-beta) (-beta + 1)).bind fun p =>
          (free_refines p.1).bind fun _ => Refines.ite
            (R := fun v es v' cut => v' = v ∧ es = [] ∧ cut = if p.2.negate.score ≥ beta then
              some (if env.failsoft then p.2.negate.score else beta) else none)
            (fun hc => (Refines.pure _).mono ?_) fun hc => (Refines.pure _).mono ?_).mono ?_
        · rintro v es v' cut ⟨rfl, rfl, rfl⟩
          exact ⟨rfl, rfl, (if_pos hc).symm⟩
        · rintro v es v' cut ⟨rfl, rfl, rfl⟩
          exact ⟨rfl, rfl, (if_neg hc).symm⟩
        · rintro v es v' cut ⟨⟨n, r⟩, v₁, es₁, _, rfl, hrun, _, v₂, _, _, rfl, ⟨rfl, rfl⟩, rfl, rfl, rfl⟩
          rw [List.append_nil, List.append_nil]
          exact .nullDone hcheck hrun
      · rintro v es v' p ⟨_, v₁, _, _, rfl, ⟨rfl, rfl, _⟩, hrun⟩
        exact hrun
    · rintro v es v' cut ⟨rfl, rfl, rfl⟩
      exact .nullSkip

theorem deepen_refines (hrec : Searches env hashed rec) (node : Node) (ply : Nat)
    (depth alpha beta : Int) :
    Refines (observe hashed) (deepen rec node ply depth alpha beta) (fun v es v' n =>
      Runs env hashed (.deepen node ply depth alpha beta) v es v' (.node n)) := by
  refine .ite (fun h => ?_) fun _ => (Refines.pure node).mono ?_
  · refine ((hrec node ply (depth - 2) alpha beta).bind fun p =>
      Refines.pure { p.1 with hashmv := p.1.getBestMove }).mono ?_
    rintro v es v' n ⟨p, v₁, es₁, _, rfl, hrun, rfl, rfl, rfl⟩
    rw [List.append_nil]
    exact .deepenDone h.2.2 hrun
  · rintro v es v' n ⟨rfl, rfl, rfl⟩
    exact .deepenSkip

/-- What is left of a search after its null move. -/
def AfterNull (env : SearchEnv) (hashed : Bool) (n : Node) (ply : Nat) (depth alpha beta : Int) :
    Option Int → Bool → List Event → Bool → Node × Ret → Prop
  | some score, v, es, v', p => v' = v ∧ es = [] ∧ p = (n, ⟨score, false⟩)
  | none, v, es, v', p => ∃ n₂ v₁ es₂ es₃, es = es₂ ++ es₃ ∧
      Runs env hashed (.deepen n ply depth alpha beta) v es₂ v₁ (.node n₂) ∧
      Runs env hashed (.moves n₂ ply depth alpha beta) v₁ es₃ v' (.ret p.1 p.2)

theorem searchProbed_refines (hrec : Searches env hashed rec) (node : Node) (ply : Nat)
    {depth : Int} (hdepth : 0 < depth) (alpha beta : Int) :
    Refines (observe hashed) (searchProbed env rec node ply depth alpha beta) (fun v es v' p =>
      Runs env hashed (.searchBody node ply depth alpha beta) v es v' (.ret p.1 p.2)) := by
  have hcount : Refines (observe hashed) (modify (fun st =>
      { st with nodesFullwidth := st.nodesFullwidth + 1 })) (fun v es v' _ => v' = v ∧ es = []) :=
    refines_of_done fun _ h => ⟨_, _, [], rfl, h, (List.append_nil _).symm, rfl, rfl⟩
  refine (hcount.bind fun _ => (probe_refines env node depth alpha beta).bind_of
    (S := fun _ v es v' p =>
      Runs env hashed (.searchBody node ply depth alpha beta) v es v' (.ret p.1 p.2)) ?_).mono ?_
  · rintro ⟨n, hit⟩ ⟨_, _, _, _, _, hprobe⟩
    cases hit with
    | some score =>
      refine (Refines.pure _).mono ?_
      rintro v es v' p ⟨rfl, rfl, rfl⟩
      exact .searchHit hdepth hprobe
    | none =>
      refine ((nullMove_refines hrec n ply depth beta).bind
        (S := AfterNull env hashed n ply depth alpha beta) fun cut => ?_).mono ?_
      · cases cut with
        | some score => exact Refines.pure _
        | none =>
          exact (deepen_refines hrec n ply depth alpha beta).bind fun n₂ =>
            searchMoves_refines hrec n₂ ply depth alpha beta
      · rintro v es v' p ⟨cut, v₁, es₁, es₂, rfl, hnull, hrest⟩
        cases cut with
        | some score =>
          obtain ⟨rfl, rfl, rfl⟩ := hrest
          rw [List.append_nil]
          exact .searchNull hdepth hprobe hnull
        | none =>
          obtain ⟨n₂, v₂, es₂, es₃, rfl, hdeepen, hmoves⟩ := hrest
          exact .searchMain hdepth hprobe hnull hdeepen hmoves
  · rintro v es v' p ⟨_, v₁, _, _, rfl, ⟨rfl, rfl⟩, _, v₂, _, _, rfl, ⟨rfl, rfl, _⟩, hrun⟩
    exact hrun

end FullWidth

/-- **The search refines the relation.** -/
theorem search_refines (fuel : Nat) : Searches env hashed (search env fuel) := by
  induction fuel with
  | zero => exact fun _ _ _ _ _ => Refines.outOfFuel
  | succ fuel ih =>
    intro node ply depth alpha beta
    have hbody : Refines (observe hashed)
        (searchBody env (quiescenceSearch env fuel) (search env fuel) node ply depth alpha beta)
        (fun v es v' p =>
          Runs env hashed (.searchBody node ply depth alpha beta) v es v' (.ret p.1 p.2)) := by
      refine .ite (fun hd => ?_) fun hd => ?_
      · exact (quiescenceSearch_refines fuel node ply alpha beta).mono fun _ _ _ _ => .searchLeaf hd
      · have hd : 0 < depth := not_le.mp hd
        cases hdraw : node.isDraw with
        | some drawscore =>
          refine (Refines.pure _).mono ?_
          rintro v es v' p ⟨rfl, rfl, rfl⟩
          exact .searchDraw hd hdraw
        | none => exact searchProbed_refines ih node ply hd alpha beta
    refine (returning_refines hbody _ _ _).mono ?_
    rintro v es v' p ⟨es₁, rfl, hrun⟩
    exact .search hrun

/-- **The search of the root refines the relation.** -/
theorem searchRoot_refines (fuel : Nat) (node : Node) (depth alpha beta : Int) :
    Refines (observe hashed) (searchRoot env fuel node depth alpha beta) (fun v es v' p =>
      Runs env hashed (.root node depth alpha beta) v es v' (.ret p.1 p.2)) := by
  refine (returning_refines ((start_refines env node).bind_of (S := fun _ v es v' p =>
    ∃ history n es₁ ls, node.start env.beyond history = some n ∧
      ((Runs env hashed (.loop (.root depth beta) ⟨n, alpha, -infty, 0, true⟩) v es₁ v'
        (.looped ls true) ∧ es = es₁ ∧ p = (ls.node, .abort)) ∨
      (Runs env hashed (.loop (.root depth beta) ⟨n, alpha, -infty, 0, true⟩) v es₁ v'
        (.looped ls false) ∧ es = es₁ ++ historyEvents ls.node ∧
          p = (ls.node, ⟨if env.failsoft then ls.bestscore else ls.alpha, false⟩)))) ?_) _ _ _).mono ?_
  · rintro n ⟨_, _, _, _, _, history, hstart⟩
    have hcalls : Calls env hashed (.root depth beta)
        (fun child => search env fuel child 1 (depth - 1)) :=
      fun child a b => search_refines fuel child 1 (depth - 1) a b
    refine ((moveLoop_refines (visitRoot_refines hcalls) loopFuel _).bind
      (S := fun (p : MoveLoop × Bool) v es v' q =>
        (p.2 = true ∧ v' = v ∧ es = [] ∧ q = (p.1.node, .abort)) ∨
        (p.2 = false ∧ v' = v ∧ es = historyEvents p.1.node ∧
          q = (p.1.node, ⟨if env.failsoft then p.1.bestscore else p.1.alpha, false⟩)))
      fun p => ?_).mono ?_
    · obtain ⟨ls, aborted⟩ := p
      refine .ite (fun h => (Refines.pure _).mono fun v es v' q hq => Or.inl ⟨h, hq⟩) fun h => ?_
      refine ((addHistory_refines ls.node).bind fun _ => Refines.pure _).mono ?_
      rintro v es v' q ⟨_, v₁, _, _, rfl, ⟨rfl, rfl⟩, rfl, rfl, rfl⟩
      exact Or.inr ⟨Bool.not_eq_true _ ▸ h, rfl, List.append_nil _, rfl⟩
    · rintro v es v' q ⟨⟨ls, _⟩, v₁, es₁, _, rfl, hloop, ⟨rfl, rfl, rfl, rfl⟩ | ⟨rfl, rfl, rfl, rfl⟩⟩
      · exact ⟨history, n, es₁, ls, hstart, Or.inl ⟨hloop, List.append_nil _, rfl⟩⟩
      · exact ⟨history, n, es₁, ls, hstart, Or.inr ⟨hloop, rfl, rfl⟩⟩
  · rintro v es v' ⟨_, _⟩ ⟨_, rfl, _, v₁, _, es₂, rfl, ⟨rfl, rfl, _⟩, history, n, es₁, ls, hstart, h⟩
    rcases h with ⟨hloop, rfl, hp⟩ | ⟨hloop, rfl, hp⟩
    · cases hp
      exact .rootAbort hstart hloop
    · cases hp
      rw [List.nil_append, List.append_assoc]
      exact .rootDone hstart hloop rfl

end Composite


end Search

end HoiChess
