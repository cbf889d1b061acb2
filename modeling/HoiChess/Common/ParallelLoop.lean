import HoiChess.Common.Slaves

/-!
# The move loop of the parallel search

From the second move on `parallel_search` gives each free slave a move, waits for a slave to get
ready, looks at its result and gives it the next move.  A null window result inside the window
of the node is searched again by the same slave.  `loopStep` is one step of the thread of the
master, up to the next moment at which others can do something; the oracle is what the clock says
where it is asked.
-/

namespace HoiChess.ParallelSearch

variable {n : Nat} {ν : Type}

/-- The options, which do not change during a search, and the legal moves of a node, as the
nodes they lead to. -/
structure Config (ν : Type) where
  failsoft : Bool
  pvsMode : Int
  minDepth : Int
  minMoveRatio : Nat
  legal : ν → List ν

/-- How a call comes to its end: by `is_draw` or the hash table, by the null move, after a stop, by
a cutoff, or with all moves searched. -/
inductive Exit where
  | answered
  | nullMove
  | stopped
  | cutoff
  | complete
  deriving DecidableEq, Repr

/-- What a step shows.
* `started`: `start_slave_thread`
* `called`: a recursive call of the master
* `best`, `raised`: a score goes to `set_best` with its move, or into `alpha`
* `stored`: a score goes to `store_hashtable`, with a window
* `returned`: `parallel_search` (or `nonparallel_search`, if `serial`) returns, with the moves it has
  a final result of -/
inductive Output (n : Nat) (ν : Type) where
  | started (id : Fin n) (args : Args ν)
  | called (args : Args ν)
  | best (ret : Ret)
  | raised (ret : Ret)
  | stored (node : ν) (depth alpha beta : Int) (ret : Ret)
  | returned (serial : Bool) (args : Args ν) (exit : Exit) (results : List ν) (ret : Ret)
  deriving DecidableEq, Repr

/-- Where the master is in the loop.
* `assign`: before the free slaves get their moves
* `check`, `wait`: before it looks at the time, before it waits for a slave
* `collected`: with the result of a slave
* `interrupting`, `joining`: in `abort_all_slaves`, before slave `i` or waiting for it, because of a
  cutoff or of a stop
* `done`: at `done`, by a cutoff or not
* `aborted`: before `return INT_MIN` -/
inductive LoopPoint (n : Nat) where
  | assign
  | check
  | wait
  | collected (id : Fin n) (ret : Ret)
  | interrupting (i : Nat) (cutoff : Bool)
  | joining (i : Fin n) (cutoff : Bool)
  | done (cutoff : Bool)
  | aborted
  deriving DecidableEq, Repr

/-- The variables of `parallel_search`.  `todo` are the moves `mov`, `next()`, and so on; `results`
notes the moves with a final result. -/
structure LoopVars (n : Nat) (ν : Type) where
  alpha : Ret
  bestscore : Ret
  todo : List ν
  results : List ν
  point : LoopPoint n

structure LoopState (n : Nat) (ν : Type) extends LoopVars n ν where
  pool : Pool n ν

namespace LoopState

section Step

variable (cfg : Config ν) (a : Args ν)

/-- The arguments for a child. -/
def childArgs (c : ν) (alpha beta : Int) : Args ν := ⟨c, a.ply + 1, a.depth - 1, alpha, beta⟩

/-- What the score of the first move does to `bestscore`, which is `-INFTY` before. -/
def firstBest (score : Ret) : Ret := if score.score > -infty then score else ⟨-infty, false⟩

def firstAlpha (score : Ret) : Ret := if score.score > a.alpha then score else ⟨a.alpha, false⟩

/-- Before the loop, with the score of the first move. -/
def first (pool : Pool n ν) (c : ν) (rest : List ν) (score : Ret) : LoopState n ν where
  pool := pool
  alpha := firstAlpha a score
  bestscore := firstBest score
  todo := rest
  results := [c]
  point := if score.score ≥ a.beta then .done true else .assign

def firstOutput (score : Ret) : List (Output n ν) :=
  (if score.score > -infty then [.best score] else []) ++
    if score.score > a.alpha then [.raised score] else []

variable (s : LoopState n ν)

/-- `nullwin` -/
def nullwin : Bool :=
  cfg.pvsMode = 1 || (cfg.pvsMode = 2 && s.alpha.score > a.alpha)

def slaveArgs (c : ν) : Args ν :=
  if s.nullwin cfg a then childArgs a c (-s.alpha.score - 1) (-s.alpha.score)
  else childArgs a c (-a.beta) (-s.alpha.score)

/-- A free slave gets a move. -/
def start (id : Fin n) (c : ν) (rest : List ν) : LoopState n ν :=
  { s with
    pool := s.pool.setSlave id { (s.pool.slaves id).startThread (s.slaveArgs cfg a c) with
      free := false, nodealloc := some c, node := some c, pvsNullwin := s.nullwin cfg a }
    todo := rest }

/-- The arguments for the second search of a child. -/
def againArgs (c : ν) : Args ν := childArgs a c (-a.beta) (-s.alpha.score)

/-- The slave searches its node again. -/
def again (id : Fin n) (c : ν) : LoopState n ν :=
  { s with
    pool := s.pool.setSlave id
      { (s.pool.slaves id).startThread (s.againArgs a c) with pvsNullwin := false }
    point := .assign }

/-- The result is taken for final. -/
def accept (id : Fin n) (c : ν) (score : Ret) : LoopState n ν :=
  { s with
    pool := s.pool.freeSlave id
    bestscore := if score.score > s.bestscore.score then score else s.bestscore
    alpha := if score.score > s.alpha.score then score else s.alpha
    results := s.results ++ [c]
    point := if score.score ≥ a.beta then .interrupting 0 true else .assign }

def acceptOutput (c : ν) (score : Ret) : List (Output n ν) :=
  (if score.score > s.bestscore.score then [.best score] else []) ++
    [.stored c (a.depth - 1) (-a.beta) (-a.alpha) score] ++
    if score.score > s.alpha.score then [.raised score] else []

/-- The PVS assumption failed. -/
def failed (id : Fin n) (score : Int) : Bool :=
  (s.pool.slaves id).pvsNullwin && score > s.alpha.score && score < a.beta

/-- One step of the master in the loop, if it can go on. -/
def step (timeout : Bool) : Option (LoopState n ν × List (Output n ν)) :=
  match s.point with
  | .assign =>
    match s.todo, s.pool.findFreeSlave with
    | c :: rest, some id => some (s.start cfg a id c rest, [.started id (s.slaveArgs cfg a c)])
    | _, _ =>
      if s.pool.allSlavesFree then some ({ s with point := .done false }, [])
      else some ({ s with point := .check }, [])
  | .check =>
    let pool := s.pool.checkTime timeout
    some ({ s with pool := pool, point := if pool.stop then .interrupting 0 false else .wait }, [])
  | .wait =>
    match s.pool.readyQueue with
    | [] => none
    | id :: queue =>
      (Pool.joinSlave { s.pool with readyQueue := queue } id).map fun (ret, pool) =>
        ({ s with pool := pool, point := .collected id ret }, [])
  | .collected id ret =>
    match (s.pool.slaves id).node with
    | none => none
    | some c =>
      if s.failed a id ret.negate.score then
        some (s.again a id c, [.started id (s.againArgs a c)])
      else some (s.accept a id c ret.negate, s.acceptOutput a c ret.negate)
  | .interrupting i cutoff =>
    if h : i < n then
      if (s.pool.slaves ⟨i, h⟩).free then some ({ s with point := .interrupting (i + 1) cutoff }, [])
      else some ({ s with
        pool := s.pool.setSlave ⟨i, h⟩ { s.pool.slaves ⟨i, h⟩ with stop := true }
        point := .joining ⟨i, h⟩ cutoff }, [])
    else some ({ s with
      pool := { s.pool with readyQueue := [] }
      point := if cutoff then .done true else .aborted }, [])
  | .joining i cutoff =>
    (s.pool.joinSlave i).map fun (_, pool) =>
      ({ s with pool := pool.freeSlave i, point := .interrupting (i.val + 1) cutoff }, [])
  | .done _ => none
  | .aborted => none

end Step

/-! ## What a step can do -/

section Steps

variable (cfg : Config ν) (a : Args ν) (timeout : Bool)

/-- The steps of the loop, each with the point it is taken at. -/
inductive Steps (s : LoopState n ν) : LoopState n ν → List (Output n ν) → Prop
  | start {id : Fin n} {c : ν} {rest : List ν} (hpoint : s.point = .assign)
      (htodo : s.todo = c :: rest) (hid : s.pool.findFreeSlave = some id) :
      Steps s (s.start cfg a id c rest) [.started id (s.slaveArgs cfg a c)]
  | complete (hpoint : s.point = .assign) (hnone : s.todo = [] ∨ s.pool.findFreeSlave = none)
      (hfree : s.pool.allSlavesFree = true) : Steps s { s with point := .done false } []
  | busy (hpoint : s.point = .assign) (hnone : s.todo = [] ∨ s.pool.findFreeSlave = none)
      (hbusy : s.pool.allSlavesFree = false) : Steps s { s with point := .check } []
  | stop (hpoint : s.point = .check) (hstop : (s.pool.checkTime timeout).stop = true) :
      Steps s { s with pool := s.pool.checkTime timeout, point := .interrupting 0 false } []
  | goOn (hpoint : s.point = .check) (hstop : (s.pool.checkTime timeout).stop = false) :
      Steps s { s with pool := s.pool.checkTime timeout, point := .wait } []
  | collect {id : Fin n} {queue : List (Fin n)} {ret : Ret} {pool : Pool n ν}
      (hpoint : s.point = .wait) (hqueue : s.pool.readyQueue = id :: queue)
      (hjoin : Pool.joinSlave { s.pool with readyQueue := queue } id = some (ret, pool)) :
      Steps s { s with pool := pool, point := .collected id ret } []
  | again {id : Fin n} {ret : Ret} {c : ν} (hpoint : s.point = .collected id ret)
      (hnode : (s.pool.slaves id).node = some c) (hfailed : s.failed a id ret.negate.score = true) :
      Steps s (s.again a id c) [.started id (s.againArgs a c)]
  | accept {id : Fin n} {ret : Ret} {c : ν} (hpoint : s.point = .collected id ret)
      (hnode : (s.pool.slaves id).node = some c) (hfinal : s.failed a id ret.negate.score = false) :
      Steps s (s.accept a id c ret.negate) (s.acceptOutput a c ret.negate)
  | skip {i : Nat} {cutoff : Bool} (hpoint : s.point = .interrupting i cutoff) (hi : i < n)
      (hfree : (s.pool.slaves ⟨i, hi⟩).free = true) :
      Steps s { s with point := .interrupting (i + 1) cutoff } []
  | interrupt {i : Nat} {cutoff : Bool} (hpoint : s.point = .interrupting i cutoff) (hi : i < n)
      (hbusy : (s.pool.slaves ⟨i, hi⟩).free = false) :
      Steps s { s with
        pool := s.pool.setSlave ⟨i, hi⟩ { s.pool.slaves ⟨i, hi⟩ with stop := true }
        point := .joining ⟨i, hi⟩ cutoff } []
  | clear {i : Nat} {cutoff : Bool} (hpoint : s.point = .interrupting i cutoff) (hi : n ≤ i) :
      Steps s { s with
        pool := { s.pool with readyQueue := [] }
        point := if cutoff then .done true else .aborted } []
  | join {i : Fin n} {cutoff : Bool} {ret : Ret} {pool : Pool n ν}
      (hpoint : s.point = .joining i cutoff) (hjoin : s.pool.joinSlave i = some (ret, pool)) :
      Steps s { s with pool := pool.freeSlave i, point := .interrupting (i.val + 1) cutoff } []

variable {cfg a timeout} {s t : LoopState n ν} {outputs : List (Output n ν)}

/-- **The loop takes these steps and no others.** -/
theorem step_iff : s.step cfg a timeout = some (t, outputs) ↔ s.Steps cfg a timeout t outputs := by
  constructor
  · intro h
    unfold step at h
    split at h
    · rename_i hpoint
      split at h
      · rename_i c rest id htodo hid
        obtain ⟨rfl, rfl⟩ := Prod.mk.inj (Option.some.inj h)
        exact .start hpoint htodo hid
      · rename_i hnot
        have hnone : s.todo = [] ∨ s.pool.findFreeSlave = none := by
          cases htodo : s.todo with
          | nil => exact .inl rfl
          | cons c rest =>
            cases hid : s.pool.findFreeSlave with
            | none => exact .inr rfl
            | some id => exact (hnot c rest id htodo hid).elim
        split at h <;> rename_i hfree <;> obtain ⟨rfl, rfl⟩ := Prod.mk.inj (Option.some.inj h)
        · exact .complete hpoint hnone hfree
        · exact .busy hpoint hnone (Bool.not_eq_true _ ▸ hfree)
    · rename_i hpoint
      obtain ⟨rfl, rfl⟩ := Prod.mk.inj (Option.some.inj h)
      cases hstop : (s.pool.checkTime timeout).stop with
      | true => exact .stop hpoint hstop
      | false => exact .goOn hpoint hstop
    · rename_i hpoint
      split at h
      · cases h
      · rename_i id queue hqueue
        obtain ⟨⟨ret, pool⟩, hjoin, he⟩ := Option.map_eq_some_iff.mp h
        obtain ⟨rfl, rfl⟩ := Prod.mk.inj he
        exact .collect hpoint hqueue hjoin
    · rename_i id ret hpoint
      split at h
      · cases h
      · rename_i c hnode
        split at h <;> rename_i hf <;> obtain ⟨rfl, rfl⟩ := Prod.mk.inj (Option.some.inj h)
        · exact .again hpoint hnode hf
        · exact .accept hpoint hnode (Bool.not_eq_true _ ▸ hf)
    · rename_i i cutoff hpoint
      split at h
      · rename_i hi
        split at h <;> rename_i hfree <;> obtain ⟨rfl, rfl⟩ := Prod.mk.inj (Option.some.inj h)
        · exact .skip hpoint hi hfree
        · exact .interrupt hpoint hi (Bool.not_eq_true _ ▸ hfree)
      · rename_i hi
        obtain ⟨rfl, rfl⟩ := Prod.mk.inj (Option.some.inj h)
        exact .clear hpoint (not_lt.mp hi)
    · rename_i i cutoff hpoint
      obtain ⟨⟨ret, pool⟩, hjoin, he⟩ := Option.map_eq_some_iff.mp h
      obtain ⟨rfl, rfl⟩ := Prod.mk.inj he
      exact .join hpoint hjoin
    · cases h
    · cases h
  · intro h
    cases h with
    | start hpoint htodo hid => simp only [step, hpoint, htodo, hid]
    | complete hpoint hnone hfree => rcases hnone with hnone | hnone <;> simp [step, hpoint, hnone, hfree]
    | busy hpoint hnone hbusy => rcases hnone with hnone | hnone <;> simp [step, hpoint, hnone, hbusy]
    | stop hpoint hstop => simp [step, hpoint, hstop]
    | goOn hpoint hstop => simp [step, hpoint, hstop]
    | collect hpoint hqueue hjoin => simp [step, hpoint, hqueue, hjoin]
    | again hpoint hnode hfailed => simp [step, hpoint, hnode, hfailed]
    | accept hpoint hnode hfinal => simp [step, hpoint, hnode, hfinal]
    | skip hpoint hi hfree => simp [step, hpoint, hi, hfree]
    | interrupt hpoint hi hbusy => simp [step, hpoint, hi, hbusy]
    | clear hpoint hi => simp [step, hpoint, not_lt.mpr hi]
    | join hpoint hjoin => simp [step, hpoint, hjoin]

end Steps

end LoopState

end HoiChess.ParallelSearch
