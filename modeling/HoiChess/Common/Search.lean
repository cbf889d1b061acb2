import HoiChess.Lib.Exec
import HoiChess.Lib.Brackets
import HoiChess.Common.Hash
import HoiChess.Common.Repetition

/-!
# The tree search

`iterate` deepens the search of the root, `search_root` searches the root moves,
`search` is the full-width search with hash table, null move, internal iterative
deepening, pruning and principal variation search, and `quiescence_search` follows
captures and check evasions.  The clock, the evaluator and other threads belong to the
environment of a run and may do anything at any moment.  Besides its result a run leaves a
trace: what each call returned, which scores were written where, the best lines.
-/

namespace HoiChess

open Chess Exec

/-- `INT_MIN` -/
abbrev intMin : Int := -2147483648

/-- `-score` for an `int`, where `INT_MIN` has no counterpart and stays. -/
def negate (score : Int) : Int := if score = intMin then intMin else -score

/-- The phases of `Evaluator::get_phase`. -/
inductive Phase where
  | opening
  | midgame
  | endgame
  deriving DecidableEq, Repr

/-- `Evaluator::get_phase(board)` -/
def getPhase (b : Board) : Phase :=
  if b.material.white + b.material.black > 7000 then .opening
  else if b.material.white + b.material.black > 3200 then .midgame
  else .endgame

/-- What surrounds a run.  The options do not change during a search; `tick` numbers the
moments at which the run looks at the clock, the evaluator or a flag that other threads
set.  The word that is read behind `mat_values` can be any. -/
structure SearchEnv where
  failsoft : Bool
  pvsMode : Int
  timecheckIntervalMin : Nat
  timecheckIntervalMax : Nat
  extendsTime : Bool
  limitsIterations : Bool
  beyond : BitVec 32
  eval : Nat → Board → Int → Int → Int
  interrupted : Nat → Bool
  timeout : Nat → Bool
  elapsed : Nat → Nat
  moreTime : Nat → Bool
  timeForNewIteration : Nat → Bool

/-- The searching functions. -/
inductive Caller where
  | root
  | search
  | quiesce
  deriving DecidableEq, Repr

/-- What a call returns: its score, and whether this is the value returned after the search
had been stopped. -/
structure Ret where
  score : Int
  aborted : Bool
  deriving DecidableEq, Repr

/-- `return INT_MIN` after a stop. -/
def Ret.abort : Ret := ⟨intMin, true⟩

def Ret.negate (r : Ret) : Ret := ⟨HoiChess.negate r.score, r.aborted⟩

/-- Where results of a child are written. -/
inductive Place where
  | hash
  | history
  | killer
  | best
  | alpha
  deriving DecidableEq, Repr

/-- The trace of a run.
* `returned`: a call with a window returned; `stopped` says whether it knew of a stop
* `evaluated`: the static score at the last ply, with the alpha of its node
* `looped`: the loop over the moves of a node ended in `search`, for a depth and a first
  alpha
* `wrote`: something was written; `aborted` says whether a searched child of the node had
  been aborted
* `bestLine`: the best line of a node at some board was set
* `adopted`: `iterate` took over the best move of an iteration -/
inductive Event where
  | returned (caller : Caller) (alpha beta : Int) (ret : Ret) (stopped : Bool)
  | evaluated (alpha score : Int) (stopped : Bool)
  | looped (node : Node) (depth alpha : Int)
  | wrote (place : Place) (aborted : Bool)
  | bestLine (board : Board) (line : PvLine)
  | adopted (stopped : Bool)

/-- The state of a search.  `pool` is no field of the source: it notes which nodes `alloc`
handed out and `free` took back. -/
structure SearchState where
  hashtable : Option HashTable
  histtable : PerColor HistoryTable
  nextSlot : Nat
  slots : Nat → Option Color
  ply1PvlineMap : Move → Option PvLine
  stop : Bool
  stopIteration : Bool
  nodesFullwidth : Nat
  nodesQuiesce : Nat
  nextTimecheckNodes : Nat
  timecheckIntervalNodes : Nat
  lastTimecheckCsecs : Nat
  tick : Nat
  trace : List Event
  pool : List (Brackets.Op (Board × List Ancestor)) := []

abbrev SearchM := Exec SearchState

namespace Search

def emit (e : Event) : SearchM Unit := modify (fun st => { st with trace := st.trace ++ [e] })

/-- The number of this look at the environment. -/
def tick : SearchM Nat := do
  let st ← get
  modify (fun st => { st with tick := st.tick + 1 })
  pure st.tick

section Environment

variable (env : SearchEnv)

/-- Reading the flag `stop`, which `interrupt()` may have set from another thread. -/
def readStop : SearchM Bool := do
  let t ← tick
  modify (fun st => { st with stop := st.stop || env.interrupted t })
  let st ← get
  pure st.stop

/-- `adjust_timecheck_interval(elapsed_csecs)` -/
def adjustTimecheckInterval (elapsed : Nat) (st : SearchState) : SearchState :=
  let diff := elapsed - st.lastTimecheckCsecs
  { st with timecheckIntervalNodes :=
      if env.timecheckIntervalMax = 0 then 1
      else if diff < env.timecheckIntervalMin ∧
        st.timecheckIntervalNodes < (2 ^ 64 - 1) / 2 then st.timecheckIntervalNodes * 2
      else if diff > env.timecheckIntervalMax ∧ st.timecheckIntervalNodes > 1 then
        st.timecheckIntervalNodes / 2
      else st.timecheckIntervalNodes }

/-- The part of `check_time` after its early return.  `extend_time_iteration` computes with
floating-point numbers; whether it asks for more time is up to the environment. -/
def checkClock (force : Bool) : SearchM Unit := do
  let t ← tick
  if env.timeout t then modify (fun st => { st with stop := true })
  else do
    let t ← tick
    modify (fun st => if force then st else adjustTimecheckInterval env (env.elapsed t) st)
    modify (fun st => { st with
      lastTimecheckCsecs := env.elapsed t
      nextTimecheckNodes := st.nodesFullwidth + st.nodesQuiesce + st.timecheckIntervalNodes })
    let t ← tick
    modify (fun st => { st with
      stopIteration := st.stopIteration || (env.extendsTime && env.moreTime t) })

/-- `check_time(force_check, force_update)`; the update is only printed. -/
def checkTime (force : Bool) : SearchM Unit := do
  let st ← get
  if st.nodesFullwidth + st.nodesQuiesce < st.nextTimecheckNodes ∧ force = false then pure ()
  else checkClock env force

def eval (board : Board) (alpha beta : Int) : SearchM Int := do
  let t ← tick
  pure (env.eval t board alpha beta)

end Environment

/-- `nodealloc.free(node)` -/
def free (node : Node) : SearchM Unit :=
  modify (fun st => { st with
    nextSlot := st.nextSlot - 1
    slots := Function.update st.slots (st.nextSlot - 1) node.historytable
    pool := st.pool ++ [.pop node.place] })

/-- `store_hashtable` -/
def store (node : Node) (depth alpha beta score : Int) : SearchM Unit := do
  modify (fun st => { st with hashtable := storeHashtable st.hashtable node depth alpha beta score })
  emit (.wrote .hash node.tainted)

/-- `add_history` -/
def addHistory (node : Node) : SearchM Unit :=
  if node.getBestMove = .noMove then pure ()
  else do
    modify (fun st => { st with
      histtable := st.histtable.set node.board.side
        ((st.histtable.get node.board.side).add node.getBestMove) })
    emit (.wrote .history node.tainted)

/-- `add_killer` -/
def addKiller (node : Node) : SearchM Node :=
  let mov := node.getBestMove
  if mov ≠ node.hashmv ∧ !mov.isCapture ∧ !mov.isEnpassant ∧ !mov.isPromotion then do
    emit (.wrote .killer node.tainted)
    pure (node.addKiller mov)
  else pure node

section Tree

variable [Build] (env : SearchEnv)

/-- `node->make_move(mov, &nodealloc)`; a bug if the pool is empty. -/
def makeMove (node : Node) (mov : Move) : SearchM Node := do
  let st ← get
  if st.nextSlot < maxply then do
    let child := node.makeMove mov (st.slots st.nextSlot)
    modify (fun st => { st with
      nextSlot := st.nextSlot + 1
      pool := st.pool ++ [.push child.place] })
    pure child
  else bug

/-- `probe_hashtable` -/
def probe (node : Node) (depth alpha beta : Int) : SearchM (Node × Option Int) := do
  let st ← get
  pure (probeHashtable env.failsoft st.hashtable node depth alpha beta)

/-- `node->first()` up to its `pick()` -/
def start (node : Node) : SearchM Node := do
  let st ← get
  match node.start env.beyond st.histtable with
  | none => bug
  | some node => pure node

/-! ## The loop over the moves of a node -/

/-- The variables of a move loop; `first` as long as no move has been searched. -/
structure MoveLoop where
  node : Node
  alpha : Int
  bestscore : Int
  moves : Nat
  first : Bool

/-- How the body of a move loop ends. -/
inductive LoopStep where
  | next (ls : MoveLoop)
  | cut (ls : MoveLoop)
  | abort (ls : MoveLoop)

/-- `for (mov = node->first(); mov; mov = node->next())` after `start`; the result says
whether the body returned. -/
def moveLoop (visit : MoveLoop → Move → SearchM LoopStep) : Nat → MoveLoop →
    SearchM (MoveLoop × Bool)
  | 0, _ => outOfFuel
  | n + 1, ls =>
    if ls.node.pick.2 = .noMove then pure ({ ls with node := ls.node.pick.1 }, false)
    else do
      match ← visit { ls with node := ls.node.pick.1 } ls.node.pick.2 with
      | .next ls => moveLoop visit n ls
      | .cut ls => pure (ls, false)
      | .abort ls => pure (ls, true)

/-- A loop ends at the latest when the move list is used up. -/
abbrev loopFuel : Nat := movelistMaxsize + 1

/-- `if (score > bestscore) { bestscore = score; node->set_best(mov, child); }` -/
def updateBest (ls : MoveLoop) (mov : Move) (child : Node) (r : Ret) : SearchM MoveLoop :=
  if r.score > ls.bestscore then do
    emit (.wrote .best r.aborted)
    emit (.bestLine ls.node.board (ls.node.setBest mov child).bestLine)
    pure { ls with bestscore := r.score, node := ls.node.setBest mov child }
  else pure ls

/-- `if (score > alpha) alpha = score;` -/
def updateAlpha (ls : MoveLoop) (r : Ret) : SearchM MoveLoop :=
  if r.score > ls.alpha then do
    emit (.wrote .alpha r.aborted)
    pure { ls with alpha := r.score }
  else pure ls

/-- What follows the search of a child: return after a stop, otherwise update the best line
and alpha, and leave the loop at beta. -/
def conclude (ls : MoveLoop) (mov : Move) (child : Node) (r : Ret) (beta : Int)
    (note : Node → Node) : SearchM LoopStep := do
  let ls := { ls with node := { ls.node with tainted := ls.node.tainted || r.aborted } }
  if ← readStop env then do
    free child
    pure (.abort ls)
  else do
    let ls ← updateBest { ls with node := note ls.node } mov child r
    free child
    let ls ← updateAlpha ls r
    if r.score ≥ beta then pure (.cut ls) else pure (.next ls)

/-- The score of a child from the point of view of its parent. -/
def negated (rec : Node → Int → Int → SearchM (Node × Ret)) (child : Node) (alpha beta : Int) :
    SearchM (Node × Ret) := do
  let (child, r) ← rec child alpha beta
  pure (child, r.negate)

/-! ## Quiescence search -/

/-- The body of the move loop of `quiescence_search`. -/
def visitQuiesce (rec : Node → Int → Int → SearchM (Node × Ret)) (beta : Int) (ls : MoveLoop)
    (mov : Move) : SearchM LoopStep := do
  let child ← makeMove ls.node mov
  if !child.board.isLegal then do
    free child
    pure (.next ls)
  else do
    let ls := { ls with moves := ls.moves + 1 }
    let (child, r) ← negated rec child (-beta) (-ls.alpha)
    checkTime env false
    conclude env { ls with first := false } mov child r beta id

/-- What `quiescence_search` does after its move loop. -/
def finishQuiesce (ply : Nat) (saveAlpha beta : Int) (ls : MoveLoop) : SearchM (Node × Ret) := do
  let mated : Bool := ls.moves = 0 && ls.node.incheck
  let matescore : Int := -infty + ply
  let bestscore := if mated && env.failsoft then matescore else ls.bestscore
  let alpha := if mated && !env.failsoft then boundScore matescore ls.alpha beta else ls.alpha
  let score := if env.failsoft then bestscore else alpha
  store ls.node 0 saveAlpha beta score
  pure (ls.node, ⟨score, false⟩)

/-- `quiescence_search` from the point where the position has been evaluated. -/
def quiesceMoves (rec : Node → Int → Int → SearchM (Node × Ret)) (node : Node) (ply : Nat)
    (alpha beta score : Int) : SearchM (Node × Ret) := do
  let node ← start env { node with type := .quiesce }
  let (ls, aborted) ← moveLoop (visitQuiesce env rec beta) loopFuel
    { node := node
      alpha := max score alpha
      bestscore := if env.failsoft then score else -infty
      moves := 0
      first := true }
  if aborted then pure (ls.node, .abort) else finishQuiesce env ply alpha beta ls

def quiesceBody (rec : Node → Nat → Int → Int → SearchM (Node × Ret)) (node : Node) (ply : Nat)
    (alpha beta : Int) : SearchM (Node × Ret) := do
  modify (fun st => { st with nodesQuiesce := st.nodesQuiesce + 1 })
  match ← probe env node 0 alpha beta with
  | (node, some score) => pure (node, ⟨score, false⟩)
  | (node, none) => do
    let score ← eval env node.board alpha beta
    if score ≥ beta then pure (node, ⟨if env.failsoft then score else beta, false⟩)
    else if ply = maxply - 1 then do
      let st ← get
      emit (.evaluated alpha score st.stop)
      pure (node, ⟨score, false⟩)
    else quiesceMoves env (fun node => rec node (ply + 1)) node ply alpha beta score

/-- Note what a call returns. -/
def returning (caller : Caller) (alpha beta : Int) (m : SearchM (Node × Ret)) :
    SearchM (Node × Ret) := do
  let (node, r) ← m
  let st ← get
  emit (.returned caller alpha beta r st.stop)
  pure (node, r)

/-- `quiescence_search(node, ply, alpha, beta)` -/
def quiescenceSearch : Nat → Node → Nat → Int → Int → SearchM (Node × Ret)
  | 0, _, _, _, _ => outOfFuel
  | fuel + 1, node, ply, alpha, beta =>
    returning .quiesce alpha beta
      (quiesceBody env (quiescenceSearch fuel) node ply alpha beta)

/-! ## Full-width search -/

/-- The search of one move: a null window first where the first move is expected to be
best, and the full window if that fails. -/
def scout (rec : Node → Int → Int → SearchM (Node × Ret)) (child : Node) (first : Bool)
    (alpha saveAlpha beta : Int) : SearchM (Node × Ret) :=
  if (env.pvsMode = 1 ∧ first = false) ∨ (env.pvsMode = 2 ∧ alpha > saveAlpha) then do
    let (child, r) ← negated rec child (-alpha - 1) (-alpha)
    if r.score > alpha ∧ r.score < beta then do
      let (child, r') ← negated rec child (-beta) (-alpha)
      pure (child, ⟨r'.score, r.aborted || r'.aborted⟩)
    else pure (child, r)
  else negated rec child (-beta) (-alpha)

/-- `node->material_balance() + margin <= alpha` -/
def marginBelow (node : Node) (margin alpha : Int) : Bool := node.material + margin ≤ alpha

/-- The depth after razoring. -/
def razorDepth (node : Node) (depth alpha : Int) : Int :=
  if depth = 3 && marginBelow node 900 alpha then depth - 1 else depth

/-- The flag `fprune`: (extended) futility pruning. -/
def fprune (node : Node) (depth alpha : Int) : Bool :=
  (razorDepth node depth alpha = 1 && marginBelow node 300 alpha) ||
    (razorDepth node depth alpha = 2 && marginBelow node 500 alpha)

/-- The depth with which the moves are searched: less by one after razoring, and after
extended futility pruning. -/
def mainDepth (node : Node) (depth alpha : Int) : Int :=
  if razorDepth node depth alpha = 2 && marginBelow node 500 alpha then
    razorDepth node depth alpha - 1
  else razorDepth node depth alpha

/-- The moves that futility pruning skips. -/
def skipped (fprune : Bool) (node child : Node) (mov : Move) : Bool :=
  fprune && !node.incheck && !child.incheck && !mov.isCapture && !mov.isEnpassant &&
    !mov.isPromotion

/-- The body of the move loop of `search`. -/
def visitSearch (rec : Node → Int → Int → SearchM (Node × Ret)) (fprune : Bool)
    (saveAlpha beta : Int) (ls : MoveLoop) (mov : Move) : SearchM LoopStep := do
  let child ← makeMove ls.node mov
  if !child.board.isLegal then do
    free child
    pure (.next ls)
  else do
    let ls := { ls with moves := ls.moves + 1 }
    if skipped fprune ls.node child mov then do
      free child
      pure (.next ls)
    else do
      let (child, r) ← scout env rec child ls.first ls.alpha saveAlpha beta
      checkTime env false
      conclude env { ls with first := false } mov child r beta id

/-- What `search` does after its move loop. -/
def finishSearch (ply : Nat) (depth saveAlpha beta : Int) (ls : MoveLoop) :
    SearchM (Node × Ret) := do
  let matescore : Int := if ls.node.incheck then -infty + ply else draw
  let bestscore := if ls.moves = 0 && env.failsoft then matescore else ls.bestscore
  let alpha := if ls.moves = 0 && !env.failsoft then boundScore matescore ls.alpha beta
    else ls.alpha
  let score := if env.failsoft then bestscore else alpha
  store ls.node depth saveAlpha beta score
  addHistory ls.node
  let node ← addKiller ls.node
  pure (node, ⟨score, false⟩)

/-- `search` from `node->set_type(Node::FULLWIDTH)` on. -/
def searchMoves (rec : Node → Nat → Int → Int → Int → SearchM (Node × Ret)) (node : Node)
    (ply : Nat) (depth alpha beta : Int) : SearchM (Node × Ret) := do
  let node := { node with type := .fullwidth, historytable := some node.board.side }
  let depth' := mainDepth node depth alpha
  let node' ← start env node
  let (ls, aborted) ← moveLoop
    (visitSearch env (fun child => rec child (ply + 1) (depth' - 1)) (fprune node depth alpha)
      alpha beta) loopFuel
    { node := node', alpha := alpha, bestscore := -infty, moves := 0, first := true }
  if aborted then pure (ls.node, .abort)
  else do
    emit (.looped ls.node depth alpha)
    finishSearch env ply depth' alpha beta ls

/-- Null-move forward pruning: the score if it cuts. -/
def nullMove (rec : Node → Nat → Int → Int → Int → SearchM (Node × Ret)) (node : Node)
    (ply : Nat) (depth beta : Int) : SearchM (Option Int) :=
  match node.ancestors with
  | [] => bug
  | parent :: _ =>
    if !node.incheck && !parent.playedMove.isNull && getPhase node.board ≠ .endgame then do
      let child ← makeMove node .null
      let (child, r) ← rec child (ply + 1) (depth - 2 - 1) (-beta) (-beta + 1)
      free child
      if r.negate.score ≥ beta then
        pure (some (if env.failsoft then r.negate.score else beta))
      else pure none
    else pure none

/-- Internal iterative deepening. -/
def deepen (rec : Node → Nat → Int → Int → Int → SearchM (Node × Ret)) (node : Node)
    (ply : Nat) (depth alpha beta : Int) : SearchM Node :=
  if node.getPvmove = .noMove ∧ node.hashmv = .noMove ∧ depth > 2 then do
    let (node, _) ← rec node ply (depth - 2) alpha beta
    pure { node with hashmv := node.getBestMove }
  else pure node

/-- `search` from the probe of the hash table on. -/
def searchProbed (rec : Node → Nat → Int → Int → Int → SearchM (Node × Ret)) (node : Node)
    (ply : Nat) (depth alpha beta : Int) : SearchM (Node × Ret) := do
  modify (fun st => { st with nodesFullwidth := st.nodesFullwidth + 1 })
  match ← probe env node depth alpha beta with
  | (node, some score) => pure (node, ⟨score, false⟩)
  | (node, none) => do
    match ← nullMove env rec node ply depth beta with
    | some score => pure (node, ⟨score, false⟩)
    | none => do
      let node ← deepen rec node ply depth alpha beta
      searchMoves env rec node ply depth alpha beta

def searchBody (quiesce : Node → Nat → Int → Int → SearchM (Node × Ret))
    (rec : Node → Nat → Int → Int → Int → SearchM (Node × Ret)) (node : Node) (ply : Nat)
    (depth alpha beta : Int) : SearchM (Node × Ret) :=
  if depth ≤ 0 then quiesce node ply alpha beta
  else
    match node.isDraw with
    | some drawscore =>
      pure (node, ⟨if env.failsoft then drawscore else boundScore drawscore alpha beta, false⟩)
    | none => searchProbed env rec node ply depth alpha beta

/-- `search(node, ply, depth, extend, alpha, beta)` -/
def search : Nat → Node → Nat → Int → Int → Int → SearchM (Node × Ret)
  | 0, _, _, _, _, _ => outOfFuel
  | fuel + 1, node, ply, depth, alpha, beta =>
    returning .search alpha beta
      (searchBody env (quiescenceSearch env fuel) (search fuel) node ply depth alpha beta)

/-! ## The root -/

/-- The child with its line of the previous iteration, if there is one. -/
def withLine (map : Move → Option PvLine) (mov : Move) (child : Node) : Node :=
  match map mov with
  | some line => { child with pvline := line }
  | none => child

/-- The body of the move loop of `search_root`. -/
def visitRoot (rec : Node → Int → Int → SearchM (Node × Ret)) (saveAlpha beta : Int)
    (ls : MoveLoop) (mov : Move) : SearchM LoopStep := do
  let child ← makeMove ls.node mov
  if !child.board.isLegal then bug
  else do
    let ls := { ls with moves := ls.moves + 1 }
    let st ← get
    let child := withLine st.ply1PvlineMap mov child
    checkTime env true
    let (child, r) ← scout env rec child ls.first ls.alpha saveAlpha beta
    modify (fun st => { st with
      ply1PvlineMap := Function.update st.ply1PvlineMap mov (some child.bestLine) })
    conclude env { ls with first := false } mov child r beta (·.setCurrentScore r.score)

/-- `search_root(node, ply, depth, alpha, beta)` -/
def searchRoot (fuel : Nat) (node : Node) (depth alpha beta : Int) : SearchM (Node × Ret) :=
  returning .root alpha beta do
    let node ← start env node
    let (ls, aborted) ← moveLoop
      (visitRoot env (fun child => search env fuel child 1 (depth - 1)) alpha beta) loopFuel
      { node := node, alpha := alpha, bestscore := -infty, moves := 0, first := true }
    if aborted then pure (ls.node, .abort)
    else do
      addHistory ls.node
      pure (ls.node, ⟨if env.failsoft then ls.bestscore else ls.alpha, false⟩)

/-! ## Iterative deepening -/

abbrev window : Int := 50

/-- What `iterate` does after an iteration. -/
inductive Decision where
  | stop (best : Move)
  | again (alpha beta : Int)
  | deeper (best : Move) (alpha beta : Int)

/-- The tests after `search_root` has returned. -/
def afterIteration (node : Node) (best : Move) (score alpha beta : Int) : SearchM Decision := do
  let st ← get
  if score ≤ alpha ∧ score > -mate then
    pure (if st.stopIteration then .stop best else .again (-infty) beta)
  else if score ≥ beta ∧ score < mate then
    pure (if st.stopIteration then .stop best else .again alpha infty)
  else do
    let best' := if node.getBestMove ≠ .noMove then node.getBestMove else best
    emit (.adopted st.stop)
    if st.stopIteration then pure (.stop best')
    else if score ≥ mate ∨ score ≤ -mate then pure (.stop best')
    else pure (.deeper best' (score - window) (score + window))

/-- One iteration of `iterate`, with the repetitions that `goto again` asks for. -/
def iteration (fuel : Nat) (depth : Nat) : Nat → Node → Move → Int → Int →
    SearchM (Node × Decision)
  | 0, _, _, _, _ => outOfFuel
  | n + 1, node, best, alpha, beta => do
    let (node, r) ← searchRoot env fuel node depth alpha beta
    checkTime env true
    if ← readStop env then pure (node, .stop best)
    else do
      match ← afterIteration node best r.score alpha beta with
      | .again alpha beta => iteration fuel depth n node best alpha beta
      | decision => pure (node, decision)

/-- `goto again` is taken at most twice for one depth. -/
abbrev againFuel : Nat := 3

/-- The loop of `iterate` over `rootdepth`, with `n` iterations to go. -/
def iterateLoop (fuel : Nat) (rootdepth : Nat) : Nat → Node → Move → Int → Int →
    SearchM (Node × Move)
  | 0, node, best, _, _ => pure (node, best)
  | n + 1, node, best, alpha, beta => do
    match ← iteration env fuel rootdepth againFuel node best alpha beta with
    | (node, .deeper best alpha beta) => do
      let t ← tick
      if env.limitsIterations && !env.timeForNewIteration t then pure (node, best)
      else iterateLoop fuel (rootdepth + 1) n node best alpha beta
    | (node, .stop best) => pure (node, best)
    | (node, .again _ _) => pure (node, best)

/-- `iterate(depth)` -/
def iterate (fuel depth : Nat) (node : Node) : SearchM (Node × Move) := do
  modify (fun st => { st with stopIteration := false, ply1PvlineMap := fun _ => none })
  iterateLoop env fuel 1 depth node node.getBestMove (-infty) infty

end Tree

end Search

end HoiChess
