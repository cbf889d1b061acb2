import HoiChess.Common.ParallelLoop
import HoiChess.Lib.Transition

/-!
# The parallel search

The calls of the master with its slaves, as a transition system.  The stack holds the calls of
`search` that have not returned.  What the master does on its own, in `search_root` and in the
`search` of its base class, is not looked into: such a call makes any calls of `search` and
returns any score (`Frame.base`).  `parallel_search` and `nonparallel_search` are followed step by step;
where they ask the board, the hash table or the clock, the choice says what the answer is.
-/

namespace HoiChess.ParallelSearch

variable {n : Nat} {ν : Type}

/-- Where the master is in `parallel_search`.
* `entered`, `probing`: before `is_draw` and `probe_hashtable`
* `nullMove`, `deepening`, `first`: in the recursive call of the null move, of internal iterative
  deepening or of the first move
* `prepared`, `ready`: after the null move, and before the first move -/
inductive ParallelPoint (n : Nat) (ν : Type) where
  | entered
  | probing
  | nullMove
  | prepared
  | deepening
  | ready
  | first (c : ν) (rest : List ν)
  | loop (vars : LoopVars n ν)

/-- A call that has not returned.  A call outside the two functions has been given the value of
an aborted search, if `tainted`.  In `nonparallel_search` the master may have started a slave. -/
inductive Frame (n : Nat) (ν : Type) where
  | base (tainted : Bool)
  | entered (a : Args ν)
  | serial (a : Args ν) (slave : Option (Fin n))
  | parallel (a : Args ν) (point : ParallelPoint n ν)
  | returned (ret : Ret)

/-- The calls of the master, the innermost one first, and what it shares with the slaves. -/
structure System (n : Nat) (ν : Type) where
  pool : Pool n ν
  stack : List (Frame n ν)

/-- What the master finds.
* `timeout`: the time is over; otherwise `go`
* `call`, `back`, `count`: a call outside the two functions calls `search`, returns, counts nodes
* `answer`: `is_draw` or the hash table gives a score
* `nullMove`, `deepen`: there is a null move, or internal iterative deepening
* `order`: the moves as `first` and `next` return them -/
inductive Choice (ν : Type) where
  | go
  | timeout
  | call (args : Args ν)
  | back (ret : Ret)
  | count (nodes : Nodes)
  | answer (score : Int)
  | nullMove (child : ν)
  | deepen
  | order (moves : List ν)

inductive Action (n : Nat) (ν : Type) where
  | env (e : Env n)
  | master (choice : Choice ν)

namespace System

/-- Before the search, in `search_root`. -/
def create (n : Nat) (ν : Type) : System n ν := ⟨.create n, [.base false]⟩

variable [DecidableEq ν] (cfg : Config ν) (pool : Pool n ν) (stack : List (Frame n ν))

/-- A call of `search`. -/
def call (args : Args ν) : System n ν × List (Output n ν) :=
  (⟨pool, .entered args :: stack⟩, [.called args])

/-- `return` from one of the two functions. -/
def ret (serial : Bool) (a : Args ν) (exit : Exit) (results : List ν) (r : Ret) :
    System n ν × List (Output n ν) :=
  (⟨pool, .returned r :: stack⟩, [.returned serial a exit results r])

/-- `return drawscore` or `return score` with a score from the hash table. -/
def answer (serial : Bool) (a : Args ν) (score : Int) : System n ν × List (Output n ν) :=
  ret pool stack serial a .answered []
    ⟨if cfg.failsoft then score else boundScore score a.alpha a.beta, false⟩

/-- `nonparallel_search` -/
def serialStep (a : Args ν) (slave : Option (Fin n)) : Choice ν → Option (System n ν × List (Output n ν))
  | .answer score =>
    if 0 < a.depth ∧ slave = none then some (answer cfg pool stack true a score) else none
  | .go => run false
  | .timeout => run true
  | _ => none
where
  run (timeout : Bool) : Option (System n ν × List (Output n ν)) :=
    match slave with
    | none =>
      match pool.findFreeSlave with
      | none => none
      | some id =>
        let s := { (pool.slaves id).startThread a with free := false, node := some a.node }
        some (⟨pool.setSlave id s, .serial a (some id) :: stack⟩, [.started id a])
    | some id =>
      match pool.readyQueue with
      | [] => none
      | id1 :: queue =>
        if id1 = id then
          (Pool.joinSlave { pool with readyQueue := queue } id).map fun (r, pool) =>
            let pool := pool.checkTime timeout
            let pool := pool.setSlave id { pool.slaves id with free := true }
            let (s, outputs) := ret pool stack true a .complete [] r
            (s, .stored a.node a.depth a.alpha a.beta r :: outputs)
        else none

/-- `parallel_search` with the loop -/
def loopFrameStep (a : Args ν) (vars : LoopVars n ν) (timeout : Bool) :
    Option (System n ν × List (Output n ν)) :=
  match vars.point with
  | .done cutoff =>
    let r := if cfg.failsoft then vars.bestscore else vars.alpha
    let (s, outputs) :=
      ret pool stack false a (if cutoff then .cutoff else .complete) vars.results r
    some (s, .stored a.node a.depth a.alpha a.beta r :: outputs)
  | .aborted => some (ret pool stack false a .stopped vars.results .abort)
  | _ =>
    (LoopState.step cfg a ⟨vars, pool⟩ timeout).map fun (s, outputs) =>
      (⟨s.pool, .parallel a (.loop s.toLoopVars) :: stack⟩, outputs)

/-- `parallel_search`.  The moves come in any order, that of `first()` and `next()` among them. -/
def parallelStep (a : Args ν) :
    ParallelPoint n ν → Choice ν → Option (System n ν × List (Output n ν))
  | .entered, .answer score => if 0 < a.depth then some (answer cfg pool stack false a score) else none
  | .entered, .go =>
    if 0 < a.depth then
      some (⟨{ pool with nodes := pool.nodes + ⟨1, 0⟩ }, .parallel a .probing :: stack⟩, [])
    else none
  | .probing, .answer score => some (answer cfg pool stack false a score)
  | .probing, .nullMove child =>
    some (call pool (.parallel a .nullMove :: stack)
      ⟨child, a.ply + 1, a.depth - 2 - 1, -a.beta, -a.beta + 1⟩)
  | .probing, .go => some (⟨pool, .parallel a .prepared :: stack⟩, [])
  | .prepared, .deepen =>
    if 2 < a.depth then
      some (call pool (.parallel a .deepening :: stack) { a with depth := a.depth - 2 })
    else none
  | .prepared, .go => some (⟨pool, .parallel a .ready :: stack⟩, [])
  | .ready, .order (c :: rest) =>
    if (c :: rest).Perm (cfg.legal a.node) then
      some (call pool (.parallel a (.first c rest) :: stack)
        (LoopState.childArgs a c (-a.beta) (-a.alpha)))
    else none
  | .loop vars, .go => loopFrameStep cfg pool stack a vars false
  | .loop vars, .timeout => loopFrameStep cfg pool stack a vars true
  | _, _ => none

/-- The score of the first move is there. -/
def firstStep (a : Args ν) (c : ν) (rest : List ν) (r : Ret) (timeout : Bool) :
    System n ν × List (Output n ν) :=
  let pool := pool.checkTime timeout
  if pool.stop then ret pool stack false a .stopped [] .abort
  else
    let s := LoopState.first a pool c rest r.negate
    (⟨s.pool, .parallel a (.loop s.toLoopVars) :: stack⟩, LoopState.firstOutput a r.negate)

/-- A call of `search` has returned to the one below it. -/
def returnedStep (r : Ret) : List (Frame n ν) → Choice ν → Option (System n ν × List (Output n ν))
  | .base tainted :: stack, .go => some (⟨pool, .base (tainted || r.aborted) :: stack⟩, [])
  | .parallel a .nullMove :: stack, .go =>
    let score := r.negate
    if score.score ≥ a.beta then
      some (ret pool stack false a .nullMove []
        (if cfg.failsoft then score else ⟨a.beta, score.aborted⟩))
    else some (⟨pool, .parallel a .prepared :: stack⟩, [])
  | .parallel a .deepening :: stack, .go => some (⟨pool, .parallel a .ready :: stack⟩, [])
  | .parallel a (.first c rest) :: stack, .go => some (firstStep pool stack a c rest r false)
  | .parallel a (.first c rest) :: stack, .timeout => some (firstStep pool stack a c rest r true)
  | _, _ => none

/-- `search` -/
def enteredStep (a : Args ν) : Frame n ν :=
  if a.depth < cfg.minDepth then .serial a none
  else if (cfg.legal a.node).length < cfg.minMoveRatio * n then .base false
  else .parallel a .entered

/-- `search_root`, or the `search` of the base class -/
def baseStep (tainted : Bool) : Choice ν → Option (System n ν × List (Output n ν))
  | .call args => some (call pool (.base tainted :: stack) args)
  | .back r =>
    if r.aborted = true → tainted = true ∨ pool.stop = true then
      some (⟨pool, .returned r :: stack⟩, [])
    else none
  | .count nodes =>
    some (⟨{ pool with nodes := pool.nodes + nodes }, .base tainted :: stack⟩, [])
  | _ => none

/-- One step of the master. -/
def masterStep (choice : Choice ν) : Option (System n ν × List (Output n ν)) :=
  match stack with
  | [] => none
  | .base tainted :: stack => baseStep pool stack tainted choice
  | .entered a :: stack =>
    match choice with
    | .go => some (⟨pool, enteredStep cfg a :: stack⟩, [])
    | _ => none
  | .serial a slave :: stack => serialStep cfg pool stack a slave choice
  | .parallel a point :: stack => parallelStep cfg pool stack a point choice
  | .returned r :: stack => returnedStep cfg pool r stack choice

/-- One step of the master or of its surroundings. -/
def step (s : System n ν) : Action n ν → Option (System n ν × List (Output n ν))
  | .env e => (s.pool.env e).map fun pool => (⟨pool, s.stack⟩, [])
  | .master choice => masterStep cfg s.pool s.stack choice

/-- The steps, with what is chosen and what is to be seen. -/
def Step (s : System n ν) (l : Action n ν × List (Output n ν)) (t : System n ν) : Prop :=
  s.step cfg l.1 = some (t, l.2)

/-! ## What the master can do -/

/-- The steps of the master, each with the call it is taken in. -/
inductive MasterSteps (pool : Pool n ν) :
    List (Frame n ν) → Choice ν → System n ν × List (Output n ν) → Prop
  | call {tainted stack args} :
      MasterSteps pool (.base tainted :: stack) (.call args) (call pool (.base tainted :: stack) args)
  | back {tainted stack r} (hr : r.aborted = true → tainted = true ∨ pool.stop = true) :
      MasterSteps pool (.base tainted :: stack) (.back r) (⟨pool, .returned r :: stack⟩, [])
  | count {tainted stack nodes} :
      MasterSteps pool (.base tainted :: stack) (.count nodes)
        (⟨{ pool with nodes := pool.nodes + nodes }, .base tainted :: stack⟩, [])
  | enter {a stack} :
      MasterSteps pool (.entered a :: stack) .go (⟨pool, enteredStep cfg a :: stack⟩, [])
  | serialAnswer {a stack score} (hdepth : 0 < a.depth) :
      MasterSteps pool (.serial a none :: stack) (.answer score)
        (answer cfg pool stack true a score)
  | serialStart {a stack choice id} (hid : pool.findFreeSlave = some id) :
      MasterSteps pool (.serial a none :: stack) choice
        (⟨pool.setSlave id
          { (pool.slaves id).startThread a with free := false, node := some a.node },
          .serial a (some id) :: stack⟩, [.started id a])
  | serialJoin {a stack choice id queue r pool'} (timeout : Bool)
      (hqueue : pool.readyQueue = id :: queue)
      (hjoin : Pool.joinSlave { pool with readyQueue := queue } id = some (r, pool')) :
      MasterSteps pool (.serial a (some id) :: stack) choice
        (⟨(pool'.checkTime timeout).setSlave id
          { (pool'.checkTime timeout).slaves id with free := true }, .returned r :: stack⟩,
          [.stored a.node a.depth a.alpha a.beta r, .returned true a .complete [] r])
  | answer {a point stack score} (hdepth : 0 < a.depth ∨ point = .probing)
      (hpoint : point = .entered ∨ point = .probing) :
      MasterSteps pool (.parallel a point :: stack) (.answer score)
        (answer cfg pool stack false a score)
  | probe {a stack} (hdepth : 0 < a.depth) :
      MasterSteps pool (.parallel a .entered :: stack) .go
        (⟨{ pool with nodes := pool.nodes + ⟨1, 0⟩ }, .parallel a .probing :: stack⟩, [])
  | nullMove {a stack child} :
      MasterSteps pool (.parallel a .probing :: stack) (.nullMove child)
        (call pool (.parallel a .nullMove :: stack)
          ⟨child, a.ply + 1, a.depth - 2 - 1, -a.beta, -a.beta + 1⟩)
  | noNullMove {a stack} :
      MasterSteps pool (.parallel a .probing :: stack) .go
        (⟨pool, .parallel a .prepared :: stack⟩, [])
  | deepen {a stack} (hdepth : 2 < a.depth) :
      MasterSteps pool (.parallel a .prepared :: stack) .deepen
        (call pool (.parallel a .deepening :: stack) { a with depth := a.depth - 2 })
  | noDeepening {a stack} :
      MasterSteps pool (.parallel a .prepared :: stack) .go
        (⟨pool, .parallel a .ready :: stack⟩, [])
  | order {a stack c rest} (hperm : (c :: rest).Perm (cfg.legal a.node)) :
      MasterSteps pool (.parallel a .ready :: stack) (.order (c :: rest))
        (call pool (.parallel a (.first c rest) :: stack)
          (LoopState.childArgs a c (-a.beta) (-a.alpha)))
  | done {a vars stack choice cutoff} (hpoint : vars.point = .done cutoff) :
      MasterSteps pool (.parallel a (.loop vars) :: stack) choice
        (⟨pool, .returned (if cfg.failsoft then vars.bestscore else vars.alpha) :: stack⟩,
          [.stored a.node a.depth a.alpha a.beta
            (if cfg.failsoft then vars.bestscore else vars.alpha),
          .returned false a (if cutoff then .cutoff else .complete) vars.results
            (if cfg.failsoft then vars.bestscore else vars.alpha)])
  | aborted {a vars stack choice} (hpoint : vars.point = .aborted) :
      MasterSteps pool (.parallel a (.loop vars) :: stack) choice
        (ret pool stack false a .stopped vars.results .abort)
  | loop {a vars stack choice t outputs} (timeout : Bool)
      (hstep : LoopState.Steps cfg a timeout ⟨vars, pool⟩ t outputs) :
      MasterSteps pool (.parallel a (.loop vars) :: stack) choice
        (⟨t.pool, .parallel a (.loop t.toLoopVars) :: stack⟩, outputs)
  | toBase {r tainted stack} :
      MasterSteps pool (.returned r :: .base tainted :: stack) .go
        (⟨pool, .base (tainted || r.aborted) :: stack⟩, [])
  | nullCut {r a stack} (hcut : r.negate.score ≥ a.beta) :
      MasterSteps pool (.returned r :: .parallel a .nullMove :: stack) .go
        (ret pool stack false a .nullMove []
          (if cfg.failsoft then r.negate else ⟨a.beta, r.negate.aborted⟩))
  | nullFailed {r a stack} (hcut : ¬ r.negate.score ≥ a.beta) :
      MasterSteps pool (.returned r :: .parallel a .nullMove :: stack) .go
        (⟨pool, .parallel a .prepared :: stack⟩, [])
  | deepened {r a stack} :
      MasterSteps pool (.returned r :: .parallel a .deepening :: stack) .go
        (⟨pool, .parallel a .ready :: stack⟩, [])
  | firstStopped {r a c rest stack choice} (timeout : Bool)
      (hstop : (pool.checkTime timeout).stop = true) :
      MasterSteps pool (.returned r :: .parallel a (.first c rest) :: stack) choice
        (ret (pool.checkTime timeout) stack false a .stopped [] .abort)
  | first {r a c rest stack choice} (timeout : Bool)
      (hstop : (pool.checkTime timeout).stop = false) :
      MasterSteps pool (.returned r :: .parallel a (.first c rest) :: stack) choice
        (⟨pool.checkTime timeout, .parallel a (.loop (LoopState.first a (pool.checkTime timeout) c rest
          r.negate).toLoopVars) :: stack⟩, LoopState.firstOutput a r.negate)

variable {cfg pool stack} {choice : Choice ν} {res : System n ν × List (Output n ν)}

omit [DecidableEq ν] in
theorem serialStep_cases {a : Args ν} {slave : Option (Fin n)}
    (h : serialStep cfg pool stack a slave choice = some res) :
    MasterSteps cfg pool (.serial a slave :: stack) choice res := by
  have hrun : ∀ timeout, serialStep.run pool stack a slave timeout = some res →
      MasterSteps cfg pool (.serial a slave :: stack) choice res := by
    intro timeout h
    unfold serialStep.run at h
    split at h
    · split at h
      · cases h
      · rename_i id hid
        obtain rfl := Option.some.inj h
        exact .serialStart hid
    · rename_i id
      split at h
      · cases h
      · rename_i id1 queue hqueue
        split at h
        · rename_i he
          subst he
          obtain ⟨⟨r, pool'⟩, hjoin, rfl⟩ := Option.map_eq_some_iff.mp h
          exact .serialJoin timeout hqueue hjoin
        · cases h
  unfold serialStep at h
  split at h
  · obtain ⟨⟨hdepth, rfl⟩, he⟩ := Option.ite_none_right_eq_some.mp h
    obtain rfl := Option.some.inj he
    exact .serialAnswer hdepth
  · exact hrun false h
  · exact hrun true h
  · cases h

omit [DecidableEq ν] in
theorem loopFrameStep_cases {a : Args ν} {vars : LoopVars n ν} {timeout : Bool}
    (h : loopFrameStep cfg pool stack a vars timeout = some res) :
    MasterSteps cfg pool (.parallel a (.loop vars) :: stack) choice res := by
  unfold loopFrameStep at h
  split at h
  · rename_i cutoff hpoint
    obtain rfl := Option.some.inj h
    exact .done hpoint
  · rename_i hpoint
    obtain rfl := Option.some.inj h
    exact .aborted hpoint
  · obtain ⟨⟨t, outputs⟩, hstep, rfl⟩ := Option.map_eq_some_iff.mp h
    exact .loop timeout (LoopState.step_iff.mp hstep)

theorem parallelStep_cases {a : Args ν} {point : ParallelPoint n ν}
    (h : parallelStep cfg pool stack a point choice = some res) :
    MasterSteps cfg pool (.parallel a point :: stack) choice res := by
  unfold parallelStep at h
  split at h
  · obtain ⟨hdepth, h⟩ := Option.ite_none_right_eq_some.mp h
    obtain rfl := Option.some.inj h
    exact .answer (.inl hdepth) (.inl rfl)
  · obtain ⟨hdepth, h⟩ := Option.ite_none_right_eq_some.mp h
    obtain rfl := Option.some.inj h
    exact .probe hdepth
  · obtain rfl := Option.some.inj h
    exact .answer (.inr rfl) (.inr rfl)
  · obtain rfl := Option.some.inj h
    exact .nullMove
  · obtain rfl := Option.some.inj h
    exact .noNullMove
  · obtain ⟨hdepth, h⟩ := Option.ite_none_right_eq_some.mp h
    obtain rfl := Option.some.inj h
    exact .deepen hdepth
  · obtain rfl := Option.some.inj h
    exact .noDeepening
  · obtain ⟨hperm, h⟩ := Option.ite_none_right_eq_some.mp h
    obtain rfl := Option.some.inj h
    exact .order hperm
  · exact loopFrameStep_cases h
  · exact loopFrameStep_cases h
  · cases h

omit [DecidableEq ν] in
theorem firstStep_cases {a : Args ν} {c : ν} {rest : List ν} {r : Ret} {timeout : Bool} :
    MasterSteps cfg pool (.returned r :: .parallel a (.first c rest) :: stack) choice
      (firstStep pool stack a c rest r timeout) := by
  unfold firstStep
  simp only
  split
  · rename_i hstop
    exact .firstStopped timeout hstop
  · rename_i hstop
    exact .first timeout (Bool.not_eq_true _ ▸ hstop)

omit [DecidableEq ν] in
theorem returnedStep_cases {r : Ret} (h : returnedStep cfg pool r stack choice = some res) :
    MasterSteps cfg pool (.returned r :: stack) choice res := by
  unfold returnedStep at h
  split at h
  · obtain rfl := Option.some.inj h
    exact .toBase
  · simp only at h
    split at h <;> rename_i hcut <;> obtain rfl := Option.some.inj h
    · exact .nullCut hcut
    · exact .nullFailed hcut
  · obtain rfl := Option.some.inj h
    exact .deepened
  · obtain rfl := Option.some.inj h
    exact firstStep_cases
  · obtain rfl := Option.some.inj h
    exact firstStep_cases
  · cases h

omit [DecidableEq ν] in
theorem baseStep_cases {tainted : Bool} (h : baseStep pool stack tainted choice = some res) :
    MasterSteps cfg pool (.base tainted :: stack) choice res := by
  unfold baseStep at h
  split at h
  · obtain rfl := Option.some.inj h
    exact .call
  · obtain ⟨hr, h⟩ := Option.ite_none_right_eq_some.mp h
    obtain rfl := Option.some.inj h
    exact .back hr
  · obtain rfl := Option.some.inj h
    exact .count
  · cases h

/-- **The master takes these steps and no others.** -/
theorem masterStep_cases (h : masterStep cfg pool stack choice = some res) :
    MasterSteps cfg pool stack choice res := by
  unfold masterStep at h
  split at h
  · cases h
  · exact baseStep_cases h
  · split at h
    · obtain rfl := Option.some.inj h
      exact .enter
    · cases h
  · exact serialStep_cases h
  · exact parallelStep_cases h
  · exact returnedStep_cases h

end System

end HoiChess.ParallelSearch
