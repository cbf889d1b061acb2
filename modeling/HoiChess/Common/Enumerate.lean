import HoiChess.Chess.Fresh
import HoiChess.Common.Exhaust
import HoiChess.Common.MoveOrdering
import Mathlib.Logic.Relation

/-!
# Every move is tried exactly once

`Leads` says which parts of a search a part runs, and `Starts` which loops over the moves of a
node it starts.  What `first()` and `next()` return in such a loop is every move of the list that
belongs to the type of the node, exactly once and in the order of the scores, and then
`NO_MOVE` (`loops_enumerate`), as long as no score comes from a word behind `mat_values` that
puts it below `-INFTY`.  The list of the root lacks the promotions that `generate_moves`
leaves out (`root_lacks_promotion`).
-/

namespace HoiChess

open Chess Rules Exec

/-! ## Nodes -/

namespace Node

section Lists

variable [Build]

/-- The moves of a node by its type: for a quiescence search, for a full-width search and
for the root. -/
def movesOfType (node : Node) : List Move :=
  let escapesOr := fun (ml : Movelist) =>
    if node.board.inCheck then node.board.generateEscapes .empty else ml
  match node.type with
  | .root => (node.board.filterIllegal (node.board.generateMoves false .empty)).moves
  | .fullwidth => (escapesOr (node.board.generateMoves false .empty)).moves
  | .quiesce => (escapesOr (node.board.generateCaptures false .empty)).moves
  | .unknown => []

theorem proper_movesOfType {node : Node} {mov : Move} (hm : mov ∈ node.movesOfType) : mov.Proper := by
  unfold movesOfType at hm
  simp only at hm
  split at hm
  · exact ((Movelist.Fresh.empty.generateMoves false).filterBy _).proper hm
  · exact (Movelist.Fresh.ite (Movelist.Fresh.empty.generateEscapes)
      (Movelist.Fresh.empty.generateMoves false)).proper hm
  · exact (Movelist.Fresh.ite (Movelist.Fresh.empty.generateEscapes)
      (Movelist.Fresh.empty.generateCaptures false)).proper hm
  · exact absurd hm List.not_mem_nil

/-- The moves of a full-width search, in some order. -/
def FullList (b : Board) (l : List Move) : Prop :=
  l.Perm (if b.inCheck then b.generateEscapes .empty else b.generateMoves false .empty).moves

theorem makesLists_full : MakesLists FullList (fun _ => True) where
  perm hl h := hl.symm.trans h
  make {node} _ hcheck := by
    unfold FullList
    rw [hcheck]

/-- The node knows whether its side is in check. -/
def KnowsCheck (node : Node) : Prop := node.incheck = node.board.inCheck

omit [Build] in
theorem KnowsCheck.frame {node n : Node} (h : node.KnowsCheck) (hf : node.Frame n) : n.KnowsCheck := by
  unfold KnowsCheck
  rw [hf.board, hf.incheck]
  exact h

end Lists

end Node

/-! ## The loops of a search -/

namespace Search

section Leads

variable [Build] (env : SearchEnv) (hashed : Bool)

/-- The loops over the moves of a node that a part of a search starts: with the node before
`first()` and the variables after it. -/
inductive Starts : Task → Node → LoopKind → MoveLoop → Prop
  | quiesce {node n n' : Node} {ply alpha beta t history} :
      Probes env hashed node 0 alpha beta (n, none) →
      ({ n with type := .quiesce } : Node).start env.beyond history = some n' →
      Starts (.quiesceBody node ply alpha beta) { n with type := .quiesce } (.quiesce ply beta)
        ⟨n', max (env.eval t n.board alpha beta) alpha,
          if env.failsoft then env.eval t n.board alpha beta else -infty, 0, true⟩
  | moves {node n : Node} {ply depth alpha beta history} :
      ({ node with type := .fullwidth, historytable := some node.board.side } : Node).start
        env.beyond history = some n →
      Starts (.moves node ply depth alpha beta)
        { node with type := .fullwidth, historytable := some node.board.side }
        (.search ply (mainDepth node depth alpha) (fprune node depth alpha) beta)
        ⟨n, alpha, -infty, 0, true⟩
  | root {node n : Node} {depth alpha beta history} : node.start env.beyond history = some n →
      Starts (.root node depth alpha beta) node (.root depth beta) ⟨n, alpha, -infty, 0, true⟩

/-- **The parts of a search that a part runs.** -/
inductive Leads : Task → Task → Prop
  | quiesce {node ply alpha beta} :
      Leads (.quiesce node ply alpha beta) (.quiesceBody node ply alpha beta)
  | search {node ply depth alpha beta} :
      Leads (.search node ply depth alpha beta) (.searchBody node ply depth alpha beta)
  | leaf {node ply depth alpha beta} : depth ≤ 0 →
      Leads (.searchBody node ply depth alpha beta) (.quiesce node ply alpha beta)
  | null {node n ply depth alpha beta} : 0 < depth → Probes env hashed node depth alpha beta (n, none) →
      Leads (.searchBody node ply depth alpha beta) (.null n ply depth beta)
  | deepen {node n ply depth alpha beta} : 0 < depth →
      Probes env hashed node depth alpha beta (n, none) →
      Leads (.searchBody node ply depth alpha beta) (.deepen n ply depth alpha beta)
  | moves {node n ply depth alpha beta s es s' n'} : 0 < depth →
      Probes env hashed node depth alpha beta (n, none) →
      Runs env hashed (.deepen n ply depth alpha beta) s es s' (.node n') →
      Leads (.searchBody node ply depth alpha beta) (.moves n' ply depth alpha beta)
  | pass {node : Node} {ply depth beta slot} : node.incheck = false →
      Leads (.null node ply depth beta)
        (.search (node.makeMove .null slot) (ply + 1) (depth - 2 - 1) (-beta) (-beta + 1))
  | shallow {node ply depth alpha beta} : 2 < depth →
      Leads (.deepen node ply depth alpha beta) (.search node ply (depth - 2) alpha beta)
  | loop {task node k ls} : Starts env hashed task node k ls → Leads task (.loop k ls)
  | visit {k ls} : ls.node.pick.2 ≠ .noMove →
      Leads (.loop k ls) (.visit k { ls with node := ls.node.pick.1 } ls.node.pick.2)
  | next {k ls ls' s es s'} : ls.node.pick.2 ≠ .noMove →
      Runs env hashed (.visit k { ls with node := ls.node.pick.1 } ls.node.pick.2) s es s'
        (.step (.next ls')) →
      Leads (.loop k ls) (.loop k ls')
  | scout {k} {ls : MoveLoop} {mov slot line} :
      (ls.node.makeMove mov slot).board.isLegal = true →
      Leads (.visit k ls mov) (.scout k { ls.node.makeMove mov slot with pvline := line } ls.alpha)
  | full {k child alpha} : Leads (.scout k child alpha) (k.call child (-k.beta) (-alpha))
  | narrow {k child alpha} : Leads (.scout k child alpha) (k.call child (-alpha - 1) (-alpha))
  | again {k child alpha s es s' n r} :
      Runs env hashed (k.call child (-alpha - 1) (-alpha)) s es s' (.ret n r) →
      Leads (.scout k child alpha) (k.call n (-k.beta) (-alpha))

/-- The root node of a search, as `init_root` sets it up and as `iterate` hands it from one
`search_root` to the next. -/
inductive RootNode : Node → Prop
  | first {node root : Node} : node.initRoot = some root → RootNode root
  | again {node n : Node} {depth alpha beta s es s' r} : RootNode node →
      Runs env hashed (.root node depth alpha beta) s es s' (.ret n r) → RootNode n

/-- The results of `first()` and `next()` in a loop, each with its score; the flag says
whether `NO_MOVE` came after them, so that the loop was not left. -/
inductive Picks (k : LoopKind) : MoveLoop → List (Move × Int) → Bool → Prop
  | exhausted {ls} : ls.node.pick.2 = .noMove → Picks k ls [] true
  | left {ls} : ls.node.pick.2 ≠ .noMove →
      Picks k ls [(ls.node.pick.2, ls.node.pick.1.currentScore)] false
  | next {ls ls' s es s' l finished} : ls.node.pick.2 ≠ .noMove →
      Runs env hashed (.visit k { ls with node := ls.node.pick.1 } ls.node.pick.2) s es s'
        (.step (.next ls')) →
      Picks k ls' l finished → Picks k ls ((ls.node.pick.2, ls.node.pick.1.currentScore) :: l) finished

/-- What the loop of a node has to go through. -/
structure Enumerates (moves : List Move) (l : List (Move × Int)) (finished : Bool) : Prop where
  sorted : l.Pairwise (fun a b => b.2 ≤ a.2)
  once : ∃ rest, (l.map Prod.fst ++ rest).Perm moves ∧ (finished = true → rest = [])

variable {env hashed}

/-! ### What the parts of a search may rely on -/

/-- The root keeps its moves from one iteration to the next. -/
structure RootList (node : Node) : Prop where
  type : node.type = .root
  incheck : node.incheck = node.board.inCheck
  moves : node.movelist.moves.Perm (node.board.filterIllegal (node.board.generateMoves false .empty)).moves

omit env hashed in
theorem RootList.keeps {node n : Node} (h : RootList node) (hk : node.Keeps n) : RootList n where
  type := hk.type.trans h.type
  incheck := by
    rw [hk.incheck, hk.board]
    exact h.incheck
  moves := by
    rw [hk.board]
    exact hk.moves.trans h.moves

theorem rootList_initRoot {node root : Node} (h : node.initRoot = some root) : RootList root := by
  unfold Node.initRoot at h
  simp only at h
  split at h
  · cases h
  · cases h
    exact ⟨rfl, rfl, .refl _⟩

theorem RootNode.list {node : Node} (h : RootNode env hashed node) : RootList node := by
  induction h with
  | first h => exact rootList_initRoot h
  | again _ hrun ih =>
    cases hrun with
    | rootAbort hstart hloop | rootDone hstart hloop =>
      exact (ih.keeps (keeps_start_root ih.type hstart)).keeps hloop.frames

/-- What a part of a search may rely on. -/
def Fit : Task → Prop
  | .quiesce node _ _ _ | .quiesceBody node _ _ _ | .null node _ _ _ => node.KnowsCheck
  | .search node _ depth _ _ | .searchBody node _ depth _ _ =>
    node.KnowsCheck ∧ (0 < depth → node.Made Node.FullList)
  | .deepen node _ _ _ _ | .moves node _ _ _ _ => node.KnowsCheck ∧ node.Made Node.FullList
  | .root node _ _ _ => node.KnowsCheck ∧ RootList node
  | .loop _ ls => ls.node.KnowsCheck ∧ ∀ mov ∈ ls.node.movelist.moves, mov.Proper
  | .visit _ ls _ => ls.node.KnowsCheck
  | .scout _ child _ => child.KnowsCheck ∧ child.Made Node.FullList

theorem fit_call {k : LoopKind} {child : Node} {a b : Int} (h : child.KnowsCheck)
    (hmade : child.Made Node.FullList) : Fit (k.call child a b) := by
  cases k with
  | quiesce => exact h
  | search | root => exact ⟨h, fun _ => hmade⟩

/-- A loop starts with the moves of its node. -/
theorem Starts.list {task : Task} {node : Node} {k : LoopKind} {ls : MoveLoop}
    (h : Starts env hashed task node k ls) (hfit : Fit task) :
    node.KnowsCheck ∧ node.startList.moves.Perm node.movesOfType ∧
      ∃ history, node.start env.beyond history = some ls.node := by
  cases h with
  | @quiesce node n _ _ alpha beta t history hp hstart =>
    have hn : n.KnowsCheck := Node.KnowsCheck.frame hfit (frame_probes hp).1
    refine ⟨hn, ?_, history, hstart⟩
    show (if n.incheck then n.board.generateEscapes .empty
      else n.board.generateCaptures false .empty).moves.Perm
        (if n.board.inCheck then n.board.generateEscapes .empty
          else n.board.generateCaptures false .empty).moves
    rw [show n.incheck = n.board.inCheck from hn]
  | @moves node n ply depth alpha beta history hstart =>
    obtain ⟨hnode, hmade⟩ := hfit
    have hmade : ({ node with type := .fullwidth, historytable := some node.board.side } : Node).Made
      Node.FullList := hmade
    exact ⟨hnode, Node.makesLists_full.startList hmade rfl trivial hnode, history, hstart⟩
  | @root node n depth alpha beta history hstart =>
    obtain ⟨hnode, hroot⟩ := hfit
    refine ⟨hnode, ?_, history, hstart⟩
    rw [startList_root hroot.type]
    unfold Node.movesOfType
    simp only [hroot.type]
    exact hroot.moves

/-- **What a part relies on, the parts it runs rely on too.** -/
theorem Leads.fit {task task' : Task} (h : Leads env hashed task task') (hfit : Fit task) :
    Fit task' := by
  cases h with
  | quiesce | search => exact hfit
  | leaf => exact hfit.1
  | null _ hp => exact Node.KnowsCheck.frame hfit.1 (frame_probes hp).1
  | deepen hd hp => exact ⟨hfit.1.frame (frame_probes hp).1, made_probes hp (hfit.2 hd)⟩
  | moves hd hp hdeepen =>
    have hn := hfit.1.frame (frame_probes hp).1
    have hmade := made_probes hp (hfit.2 hd)
    exact ⟨hn.frame hdeepen.frames, hdeepen.made Node.makesLists_full trivial hn hmade⟩
  | pass => exact ⟨rfl, fun _ => .inl rfl⟩
  | scout => exact ⟨rfl, .inl rfl⟩
  | shallow => exact ⟨hfit.1, fun _ => hfit.2⟩
  | @loop _ node k ls hstarts =>
    obtain ⟨hnode, hlist, history, hstart⟩ := hstarts.list hfit
    have hcont := Node.continues_start hstart
    refine ⟨hnode.frame (Node.frame_start hstart), fun mov hmov => ?_⟩
    rw [hcont.moves] at hmov
    exact Node.proper_movesOfType (hlist.mem_iff.mp hmov)
  | @visit k ls => exact Node.KnowsCheck.frame hfit.1 (Node.keeps_pick ls.node).toFrame
  | @next k ls ls' _ _ _ _ hvisit =>
    obtain ⟨hnode, hlists⟩ := hfit
    have hk : ls.node.Keeps ls'.node := (Node.keeps_pick ls.node).trans hvisit.frames.keeps
    exact ⟨hnode.frame hk.toFrame, fun mov hmov => hlists mov (hk.moves.mem_iff.mp hmov)⟩
  | full | narrow => exact fit_call hfit.1 hfit.2
  | @again k child alpha s es s' n r hrun =>
    obtain ⟨hchild, hmade⟩ := hfit
    have hn := hchild.frame (frame_call hrun.frames)
    cases k with
    | quiesce => exact hn
    | search | root => exact ⟨hn, fun hd => hrun.made Node.makesLists_full hd trivial hchild hmade⟩

theorem fit_of_leads {task task' : Task} (h : Relation.ReflTransGen (Leads env hashed) task task')
    (hfit : Fit task) : Fit task' := by
  induction h with
  | refl => exact hfit
  | tail _ hlast ih => exact hlast.fit ih

/-! ### Picking through a loop -/

omit [Build] in
/-- A visit keeps what has not been picked yet: `set_current_score` writes the score of the
move that has been picked. -/
theorem remaining_setCurrentScore {node : Node} (h : 0 < node.nextMoveNo) (score : Int) :
    (node.setCurrentScore score).remaining = node.remaining := by
  show (node.movelist.entries.modify (node.nextMoveNo - 1) _).drop node.nextMoveNo = _
  rw [List.drop_modify_of_lt]
  · rfl
  · omega

omit [Build] in
theorem remaining_visitStep (k : LoopKind) (ls : MoveLoop) (hpos : 0 < ls.node.nextMoveNo) (mov : Move)
    (child : Node) (r : Ret) : (({ ls.enter.taint r with
      node := k.note r.score (ls.enter.taint r).node } : MoveLoop).take mov child r).node.remaining =
        ls.node.remaining := by
  cases k with
  | quiesce ply beta => exact remaining_visit (k := .quiesce ply beta) trivial ls mov child r
  | search ply depth fp beta => exact remaining_visit (k := .search ply depth fp beta) trivial ls mov child r
  | root =>
    have hnext : 0 < (ls.enter.taint r).node.nextMoveNo := hpos
    unfold MoveLoop.take
    simp only
    split
    · exact remaining_setCurrentScore hnext r.score
    · exact remaining_setCurrentScore hnext r.score

/-- What a visit leaves of the moves that have not been picked yet. -/
def LeavesRest : Task → Result → Prop
  | .visit _ ls _, .step (.next ls') => 0 < ls.node.nextMoveNo → ls'.node.remaining = ls.node.remaining
  | _, _ => True

theorem Runs.leavesRest {task : Task} {s : Bool} {es : List Event} {s' : Bool} {res : Result}
    (h : Runs env hashed task s es s' res) : LeavesRest task res := by
  induction h with
  | illegal | skipped => exact fun _ => rfl
  | late _ ih => exact ih
  | @visitNext k ls ls' mov s slot line es s' n r _ _ _ _ _ hls =>
    subst hls
    exact fun hpos => remaining_visitStep k ls hpos mov n r
  | _ => trivial

/-- **What a loop picks**: the remaining moves, each once and the best first. -/
theorem Picks.remaining {k : LoopKind} {ls : MoveLoop} {l : List (Move × Int)} {finished : Bool}
    (h : Picks env hashed k ls l finished) (hfit : Fit (.loop k ls)) (hscored : ls.node.Pickable) :
    l.Pairwise (fun a b => b.2 ≤ a.2) ∧
      ∃ rest, (l ++ rest).Perm ls.node.remaining ∧ (finished = true → rest = []) := by
  induction h with
  | @exhausted ls hpick =>
    refine ⟨.nil, [], ?_, fun _ => rfl⟩
    rw [hscored.remaining_eq_nil hfit.2 hpick]
    rfl
  | left hpick =>
    obtain ⟨hperm, hbest, _⟩ := Node.pick_spec hpick
    exact ⟨List.pairwise_singleton _ _, _, hperm.symm, fun h => by cases h⟩
  | @next ls ls' _ _ _ l finished hpick hvisit _ ih =>
    obtain ⟨hperm, hbest, hnext⟩ := Node.pick_spec hpick
    have hrest : ls'.node.remaining = ls.node.pick.1.remaining := by
      refine hvisit.leavesRest ?_
      show 0 < ls.node.pick.1.nextMoveNo
      rw [hnext]
      exact Nat.succ_pos _
    have hscored' : ls'.node.Pickable := by
      unfold Node.Pickable
      rw [hrest]
      exact hscored.pick hpick
    obtain ⟨hsorted, rest, hl, hover⟩ := ih (Leads.fit (.next hpick hvisit) hfit) hscored'
    rw [hrest] at hl
    refine ⟨List.pairwise_cons.mpr ⟨fun e he => ?_, hsorted⟩, rest, ?_, hover⟩
    · have hmem : e ∈ ls.node.pick.1.remaining := hl.mem_iff.mp (List.mem_append_left _ he)
      exact hbest e (hperm.mem_iff.mpr (List.mem_cons_of_mem _ hmem))
    · exact (hl.cons _).trans hperm.symm

/-- The root takes the scores that it has. -/
theorem scored_start_root {node n : Node} {beyond : BitVec 32} {history : PerColor HistoryTable}
    (htype : node.type = .root) (hscored : node.Scored) (hstart : node.start beyond history = some n) :
    n.Scored := by
  rw [Node.start_eq hstart, startList_root htype]
  unfold Node.scoreMoves
  rw [if_pos htype]
  exact hscored

/-- The first iteration takes every move of the root. -/
theorem scored_initRoot {node root : Node} (h : node.initRoot = some root) : root.Scored := by
  have hlist : root.movelist = root.board.filterIllegal (root.board.generateMoves false .empty) := by
    unfold Node.initRoot at h
    simp only at h
    split at h
    · cases h
    · cases h
      rfl
  intro e he
  rw [hlist] at he
  rw [(((Movelist.Fresh.empty.generateMoves false).filterBy _) e he).2]
  decide

/-- Moves that are scored within `mat_values`, or with a word behind it that leaves a score. -/
theorem scored_start_of_reads {node n : Node} {beyond : BitVec 32} {history : PerColor HistoryTable}
    (htype : node.type ≠ .root) (hmoves : node.startList.moves.Perm node.movesOfType)
    (hword : Node.WordScored beyond ∨ ∀ mov ∈ node.movesOfType, ∀ i ∈ node.tableReads mov, i < 6)
    (hstart : node.start beyond history = some n) : n.Scored := by
  refine Node.scored_start htype (fun mov hmov => ?_) hstart
  have hmem := hmoves.mem_iff.mp hmov
  have hproper := Node.proper_movesOfType hmem
  rcases hword with hword | hreads
  · exact node.lt_moveScore history hproper fun _ => hword
  · exact node.lt_moveScore_of_reads htype hproper (hreads mov hmem) beyond history

/-- The loop of a part that may rely on what it does. -/
theorem Starts.enumerates {task : Task} {node : Node} {k : LoopKind} {ls : MoveLoop}
    (hstarts : Starts env hashed task node k ls) (hfit : Fit task)
    (hword : Node.WordScored env.beyond ∨ ∀ mov ∈ node.movesOfType, ∀ i ∈ node.tableReads mov, i < 6)
    (hscored : node.type = .root → (∀ before : Node, before.initRoot ≠ some node) → node.Scored)
    {l : List (Move × Int)} {finished : Bool} (hpicks : Picks env hashed k ls l finished) :
    Enumerates node.movesOfType l finished := by
  obtain ⟨hnode, hmoves, history, hstart⟩ := hstarts.list hfit
  have hall : ls.node.Scored := by
    by_cases htype : node.type = .root
    · refine scored_start_root htype ?_ hstart
      by_cases hfirst : ∃ before : Node, before.initRoot = some node
      · obtain ⟨before, hbefore⟩ := hfirst
        exact scored_initRoot hbefore
      · exact hscored htype fun before hbefore => hfirst ⟨before, hbefore⟩
    · exact scored_start_of_reads htype hmoves hword hstart
  obtain ⟨hsorted, rest, hperm, hover⟩ := hpicks.remaining (Leads.fit (.loop hstarts) hfit)
    fun e he => hall e (List.mem_of_mem_drop he)
  refine ⟨hsorted, rest.map Prod.fst, ?_, fun h => by rw [hover h, List.map_nil]⟩
  rw [← List.map_append]
  refine (hperm.map _).trans ?_
  rw [← Node.todo, Node.todo_start hstart]
  exact hmoves

/-- **Every move of a node is tried exactly once**, whatever part of a search its loop belongs
to, where the scores come from within `mat_values` or the word behind it leaves a score. -/
theorem loops_enumerate {root : Node} (hroot : RootNode env hashed root)
    {depth alpha beta : Int} {task : Task}
    (hleads : Relation.ReflTransGen (Leads env hashed) (.root root depth alpha beta) task) {node : Node}
    {k : LoopKind} {ls : MoveLoop} (hstarts : Starts env hashed task node k ls)
    (hword : Node.WordScored env.beyond ∨ ∀ mov ∈ node.movesOfType, ∀ i ∈ node.tableReads mov, i < 6)
    (hscored : node.type = .root → (∀ before : Node, before.initRoot ≠ some node) → node.Scored)
    {l : List (Move × Int)} {finished : Bool} (hpicks : Picks env hashed k ls l finished) :
    Enumerates node.movesOfType l finished :=
  hstarts.enumerates (fit_of_leads hleads ⟨hroot.list.incheck, hroot.list⟩) hword hscored hpicks

/-! ### Loops in a run -/

variable {task : Task} {s : Bool} {es : List Event} {s' : Bool} {res : Result}

/-- What a loop has picked when it ends. -/
def Picked (env : SearchEnv) (hashed : Bool) : Task → Result → Prop
  | .loop k ls, .looped _ aborted =>
    ∃ l finished, Picks env hashed k ls l finished ∧ (aborted = true → finished = false)
  | _, _ => True

/-- **Every loop that is run has its results of `first()` and `next()`.** -/
theorem Runs.picked (h : Runs env hashed task s es s' res) : Picked env hashed task res := by
  induction h with
  | loopEnd hno => exact ⟨[], true, .exhausted hno, nofun⟩
  | loopNext hpick hvisit _ _ ih =>
    obtain ⟨l, finished, hl, hleft⟩ := ih
    exact ⟨_, finished, .next hpick hvisit hl, hleft⟩
  | loopCut hpick | loopAbort hpick => exact ⟨_, false, .left hpick, fun _ => rfl⟩
  | _ => trivial

/-- A part that the task leads to starts a loop, which ends with the node. -/
def EndsLoop (env : SearchEnv) (hashed : Bool) (task : Task) (node : Node) : Prop :=
  ∃ part before k ls t es t' ls', Relation.ReflTransGen (Leads env hashed) task part ∧
    Starts env hashed part before k ls ∧
      Runs env hashed (.loop k ls) t es t' (.looped ls' false) ∧ ls'.node = node

theorem EndsLoop.of_leads {part : Task} {node : Node} (h : EndsLoop env hashed part node)
    (hleads : Leads env hashed task part) : EndsLoop env hashed task node := by
  obtain ⟨last, before, k, ls, t, es, t', ls', hlast, hrest⟩ := h
  exact ⟨last, before, k, ls, t, es, t', ls', hlast.head hleads, hrest⟩

omit [Build] in
theorem not_looped_takeEvents {ls : MoveLoop} {mov : Move} {child node : Node} {r : Ret}
    {depth alpha : Int} : .looped node depth alpha ∉ ls.takeEvents mov child r := by
  intro h
  rcases MoveLoop.mem_takeEvents h with ⟨_, h | h⟩ | h <;> cases h

omit [Build] in
theorem not_looped_finish {ended node : Node} {depth alpha : Int} :
    .looped node depth alpha ∉ historyEvents ended ++ killerEvents ended := by
  intro h
  rcases List.mem_append.mp h with h | h
  · cases mem_historyEvents h
  · cases mem_killerEvents h

/-- **The loops that the trace of a run shows are loops that its task leads to.** -/
theorem Runs.endsLoop (h : Runs env hashed task s es s' res) {node : Node} {depth alpha : Int}
    (he : .looped node depth alpha ∈ es) : EndsLoop env hashed task node := by
  induction h with
  | quiesce _ ih =>
    exact (ih ((List.mem_append.mp he).resolve_right (by simp))).of_leads .quiesce
  | search _ ih =>
    exact (ih ((List.mem_append.mp he).resolve_right (by simp))).of_leads .search
  | quiesceAbort hp _ _ hstart _ ih => exact (ih he).of_leads (.loop (.quiesce hp hstart))
  | quiesceDone hp _ _ hstart _ ih =>
    exact (ih ((List.mem_append.mp he).resolve_right (by simp))).of_leads (.loop (.quiesce hp hstart))
  | searchLeaf hd _ ih => exact (ih he).of_leads (.leaf hd)
  | searchNull hd hp _ ih => exact (ih he).of_leads (.null hd hp)
  | searchMain hd hp _ hdeepen _ ih₁ ih₂ ih₃ =>
    rcases List.mem_append.mp he with he | he
    · exact (ih₁ he).of_leads (.null hd hp)
    rcases List.mem_append.mp he with he | he
    · exact (ih₂ he).of_leads (.deepen hd hp)
    · exact (ih₃ he).of_leads (.moves hd hp hdeepen)
  | nullDone hcheck _ ih => exact (ih he).of_leads (.pass hcheck)
  | deepenDone hd _ ih => exact (ih he).of_leads (.shallow hd)
  | movesAbort hstart _ ih => exact (ih he).of_leads (.loop (.moves hstart))
  | movesDone hstart hloop _ ih =>
    rcases List.mem_append.mp he with he | he
    · exact (ih he).of_leads (.loop (.moves hstart))
    rcases List.mem_cons.mp he with he | he
    · cases he
      exact ⟨_, _, _, _, _, _, _, _, .refl, .moves hstart, hloop, rfl⟩
    · exact absurd ((List.mem_cons.mp he).resolve_left nofun) not_looped_finish
  | rootAbort hstart _ ih =>
    exact (ih ((List.mem_append.mp he).resolve_right (by simp))).of_leads (.loop (.root hstart))
  | rootDone hstart _ _ ih =>
    rcases List.mem_append.mp he with he | he
    · exact (ih he).of_leads (.loop (.root hstart))
    · rcases List.mem_append.mp he with he | he
      · cases mem_historyEvents he
      · cases List.mem_singleton.mp he
  | loopNext hpick hvisit _ ih₁ ih₂ =>
    rcases List.mem_append.mp he with he | he
    · exact (ih₁ he).of_leads (.visit hpick)
    · exact (ih₂ he).of_leads (.next hpick hvisit)
  | loopCut hpick _ ih | loopAbort hpick _ ih => exact (ih he).of_leads (.visit hpick)
  | late _ ih => exact ih he
  | visitAbort hl _ _ ih => exact (ih he).of_leads (.scout hl)
  | visitCut hl _ _ _ _ _ ih | visitNext hl _ _ _ _ _ ih =>
    exact (ih ((List.mem_append.mp he).resolve_right not_looped_takeEvents)).of_leads (.scout hl)
  | scoutFull _ ih => exact (ih he).of_leads .full
  | scoutNull _ _ ih => exact (ih he).of_leads .narrow
  | scoutAgain hrun _ _ _ ih₁ ih₂ =>
    rcases List.mem_append.mp he with he | he
    · exact (ih₁ he).of_leads .narrow
    · exact (ih₂ he).of_leads (.again hrun)
  | quiesceLeaf => exact absurd (List.mem_singleton.mp he) nofun
  | _ => exact absurd he List.not_mem_nil

/-! ### Loops that are not left -/

/-- With a window below the value of every leaf no move of a shallow search is good enough. -/
theorem visit_next (hashed : Bool) {v : Int} (hfail : env.failsoft = false)
    (heval : ∀ t b alpha beta, env.eval t b alpha beta = v) (hv : 0 < v) {ls : MoveLoop}
    (halpha : ls.alpha = -v) (mov : Move) : ∃ ls' es,
      Runs env hashed (.visit (.root 1 v) ls mov) false es false (.step (.next ls')) ∧ ls'.alpha = -v := by
  cases hl : (ls.node.makeMove mov none).board.isLegal with
  | false => exact ⟨ls, [], .illegal hl, halpha⟩
  | true =>
    have hneg : (⟨v, false⟩ : Ret).negate = ⟨-v, false⟩ := by
      have hmin : intMin < 0 := by decide
      show (⟨if v = intMin then intMin else -v, false⟩ : Ret) = _
      rw [if_neg (by omega)]
    let child : Node := { ls.node.makeMove mov none with pvline := .empty }
    have hprobe : Probes env hashed child 0 (-v) v (child, none) := ⟨none, .inr rfl, rfl⟩
    have hleaf : Runs env hashed (.quiesceBody child 1 (-v) v) false [] false
        (.ret child ⟨if env.failsoft then env.eval 0 child.board (-v) v else v, false⟩) :=
      .quiesceCut hprobe (heval _ _ _ _).ge
    rw [hfail] at hleaf
    have hscout : Runs env hashed (.scout (.root 1 v) child ls.alpha) false
        ([.returned .quiesce (-v) v ⟨v, false⟩ false] ++ [.returned .search (-v) v ⟨v, false⟩ false])
        false (.ret child ⟨-v, false⟩) := by
      rw [← hneg]
      refine .scoutFull (k := .root 1 v) ?_
      rw [halpha, neg_neg]
      exact .search (.searchLeaf le_rfl (.quiesce hleaf))
    have hlow : ¬ -v > (ls.enter.taint ⟨-v, false⟩).alpha := by
      show ¬ -v > ls.alpha
      rw [halpha]
      exact lt_irrefl _
    refine ⟨_, _, .visitNext hl rfl hscout rfl (show -v < v by omega) rfl, ?_⟩
    show (if -v > (ls.enter.taint ⟨-v, false⟩).alpha then -v else _) = -v
    rw [if_neg hlow]
    exact halpha

theorem exists_picks {v : Int} (hfail : env.failsoft = false)
    (heval : ∀ t b alpha beta, env.eval t b alpha beta = v) (hv : 0 < v) {ls : MoveLoop}
    (halpha : ls.alpha = -v) : ∃ l, Picks env hashed (.root 1 v) ls l true := by
  generalize hn : ls.node.remaining.length = n
  induction n using Nat.strong_induction_on generalizing ls with
  | _ n ih =>
    by_cases hpick : ls.node.pick.2 = .noMove
    · exact ⟨[], .exhausted hpick⟩
    · have hlow : ({ ls with node := ls.node.pick.1 } : MoveLoop).alpha = -v := halpha
      obtain ⟨ls', es, hvisit, halpha'⟩ := visit_next hashed hfail heval hv hlow ls.node.pick.2
      obtain ⟨hperm, _, hnext⟩ := Node.pick_spec hpick
      have hrest : ls'.node.remaining = ls.node.pick.1.remaining := by
        refine hvisit.leavesRest ?_
        show 0 < ls.node.pick.1.nextMoveNo
        rw [hnext]
        exact Nat.succ_pos _
      have hlen := hperm.length_eq
      rw [List.length_cons] at hlen
      obtain ⟨l, hl⟩ := ih _ (by rw [hrest]; omega) halpha' rfl
      exact ⟨_, .next hpick hvisit hl⟩

omit [Build] in
/-- The first iteration at the opening position. -/
theorem loops_enumerate_opening : ∃ b root, @Board.parseFen sampleBuild openingFen = .accepted b ∧
    @Node.initRoot (.ofBoard b) sampleBuild = some root ∧
      ∃ l, @Enumerates (@Node.movesOfType sampleBuild root) l true := by
  let _ := sampleBuild
  obtain ⟨b, hb, hsim⟩ := parseFen_opening
  have hsound : b.Sound := hsim.sound sane_opening materialOk_opening
  have hlegal : Rules.opening.Legal (.move 12 28 .pawn none) := by decide +kernel
  obtain ⟨root, hroot⟩ := Node.exists_initRoot hsound ⟨_, hsim.abs_eq ▸ hlegal⟩
  obtain ⟨n, hstart⟩ := Node.start_root (rootFits_initRoot hroot).type (rootFits_initRoot hroot).size 0
    (.both .reset)
  have hstarts : Starts (stillEnv false 1) true (.root root 1 (-1) 1) root (.root 1 1)
    ⟨n, -1, -infty, 0, true⟩ := .root hstart
  obtain ⟨l, hl⟩ : ∃ l, Picks (stillEnv false 1) true (.root 1 1) ⟨n, -1, -infty, 0, true⟩ l true :=
    exists_picks rfl (fun _ _ _ _ => rfl) one_pos rfl
  exact ⟨b, root, hb, hroot, l, loops_enumerate (.first hroot) .refl hstarts (.inl (by decide))
    (fun _ hnot => absurd hroot (hnot _)) hl⟩

omit [Build] in
/-- After 1. a4 b5 2. ab a6 3. ba Nc6 4. a7 Rb8 the root is never asked about a8=R. -/
theorem root_lacks_promotion : ∃ b root, @Reached sampleBuild b ∧
    @Node.initRoot (.ofBoard b) sampleBuild = some root ∧
      ∃ n, @Node.start root sampleBuild 0 (.both .reset) = some n ∧
        ∃ l, @Picks sampleBuild (stillEnv false 1) true (.root 1 1) ⟨n, -1, -infty, 0, true⟩ l true ∧
          ∃ mov ∈ (@Board.legalMoves sampleBuild b).moves, mov ∉ l.map Prod.fst := by
  let _ := sampleBuild
  obtain ⟨b, hb, hsim, hp⟩ := reached_line (l := Node.pawnOnSeventh) (by decide +kernel)
  have hlegal : (Node.pawnOnSeventh.foldl Position.apply Rules.opening).Legal
      (.promote 48 56 .rook none) := by
    decide +kernel
  have hsound : b.Sound := hsim.sound hp.sane hp.materialOk
  obtain ⟨root, hroot⟩ := Node.exists_initRoot hsound ⟨_, hsim.abs_eq ▸ hlegal⟩
  obtain ⟨n, hstart⟩ := Node.start_root (rootFits_initRoot hroot).type (rootFits_initRoot hroot).size 0
    (.both .reset)
  have hstarts : Starts (stillEnv false 1) true (.root root 1 (-1) 1) root (.root 1 1)
    ⟨n, -1, -infty, 0, true⟩ := .root hstart
  obtain ⟨l, hl⟩ : ∃ l, Picks (stillEnv false 1) true (.root 1 1) ⟨n, -1, -infty, 0, true⟩ l true :=
    exists_picks rfl (fun _ _ _ _ => rfl) one_pos rfl
  refine ⟨b, root, hb, hroot, n, hstart, l, hl, _,
    (hsim.mem_legalMoves hp.sane hp.materialOk _).mpr ⟨_, rfl, hlegal⟩, fun hmem => ?_⟩
  have hlist := rootList_initRoot hroot
  obtain ⟨_, rest, hperm, _⟩ := hstarts.enumerates ⟨hlist.incheck, hlist⟩ (.inl (by decide))
    (fun _ hnot => absurd hroot (hnot _)) hl
  have hmoves := hperm.mem_iff.mp (List.mem_append_left _ hmem)
  unfold Node.movesOfType at hmoves
  simp only [hlist.type] at hmoves
  rw [Node.board_initRoot hroot] at hmoves
  obtain ⟨ply, heq, _, hch⟩ :=
    (hsim.mem_filterIllegal_generateMoves hp.sane hp.materialOk false _).mp hmoves
  obtain rfl := Ply.encode_injective heq
  exact absurd (show Piece.rook ∈ Board.promotionChoice false from hch) (by decide)

end Leads

end Search

end HoiChess
