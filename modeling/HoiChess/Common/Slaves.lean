import HoiChess.Common.Search

/-!
# The slaves of the parallel search

What the master and its slaves share.  A slave runs one search at a time in a thread of its own;
when the search returns, the thread puts the number of the slave into `ready_queue` and ends.
`Env` is all that happens outside the thread of the master, at any moment and in any order: slaves
count nodes, finish or notice that they have to stop, and others call `interrupt()`.
-/

namespace HoiChess.ParallelSearch

/-! ## What they share -/

/-- `nodes_fullwidth` and `nodes_quiesce`, each an `unsigned long long` -/
structure Nodes where
  fullwidth : BitVec 64
  quiesce : BitVec 64
  deriving DecidableEq, Repr

namespace Nodes

instance : Zero Nodes := ⟨⟨0, 0⟩⟩
instance : Add Nodes := ⟨fun x y => ⟨x.fullwidth + y.fullwidth, x.quiesce + y.quiesce⟩⟩
instance : Sub Nodes := ⟨fun x y => ⟨x.fullwidth - y.fullwidth, x.quiesce - y.quiesce⟩⟩

end Nodes

/-- The arguments of a search, without `extend`. -/
structure Args (ν : Type) where
  node : ν
  ply : Nat
  depth : Int
  alpha : Int
  beta : Int
  deriving DecidableEq, Repr

/-- The thread of a search, with the arguments of its run and in the end with the result. -/
inductive Thread (ν : Type) where
  | none
  | running (args : Args ν)
  | finished (args : Args ν) (ret : Ret)
  deriving DecidableEq, Repr

/-- `struct slave`, with those fields of its `search` that others look at.  `nodealloc` is the node
that its allocator has handed out. -/
structure Slave (ν : Type) where
  thread : Thread ν
  stop : Bool
  nodes : Nodes
  free : Bool
  nodealloc : Option ν
  node : Option ν
  pvsNullwin : Bool
  lastNodes : Nodes

/-- A single slave has the number 0. -/
instance neZero_slave : NeZero 1 := ⟨by decide⟩

/-- The slaves and what the master shares with them. -/
structure Pool (n : Nat) (ν : Type) where
  slaves : Fin n → Slave ν
  readyQueue : List (Fin n)
  stop : Bool
  nodes : Nodes

variable {n : Nat} {ν : Type}

namespace Slave

/-- A slave as `add_slave` makes it. -/
def create : Slave ν := ⟨.none, false, 0, true, none, none, false, 0⟩

/-- `start_slave_thread`, which does nothing if the thread is running. -/
def startThread (s : Slave ν) (args : Args ν) : Slave ν :=
  match s.thread with
  | .none => { s with thread := .running args, stop := false }
  | _ => s

/-- `stop_slave_thread`, once the thread has ended. -/
def stopThread (s : Slave ν) : Option (Ret × Slave ν) :=
  match s.thread with
  | .finished _ ret => some (ret, { s with thread := .none, stop := true })
  | _ => none

end Slave

namespace Pool

/-- The slaves of a new `ParallelSearch`. -/
def create (n : Nat) : Pool n ν := ⟨fun _ => .create, [], false, 0⟩

variable (p : Pool n ν)

def setSlave (id : Fin n) (s : Slave ν) : Pool n ν :=
  { p with slaves := Function.update p.slaves id s }

def findFreeSlave : Option (Fin n) := (List.finRange n).find? fun i => (p.slaves i).free

def allSlavesFree : Bool := (List.finRange n).all fun i => (p.slaves i).free

/-- `check_time(true, false)`, where `timeout` is what the clock says. -/
def checkTime (timeout : Bool) : Pool n ν := { p with stop := p.stop || timeout }

def getSlaveStatistics (id : Fin n) : Pool n ν :=
  { p.setSlave id { p.slaves id with lastNodes := (p.slaves id).nodes } with
    nodes := p.nodes + ((p.slaves id).nodes - (p.slaves id).lastNodes) }

/-- `get_slave_statistics(id)` after `stop_slave_thread()`. -/
def joinSlave (id : Fin n) : Option (Ret × Pool n ν) :=
  (p.slaves id).stopThread.map fun (ret, s) => (ret, (p.setSlave id s).getSlaveStatistics id)

/-- `slaves[id].node->free(); slaves[id].free = true;` -/
def freeSlave (id : Fin n) : Pool n ν :=
  p.setSlave id { p.slaves id with nodealloc := none, free := true }

/-- `slave_ready` at the end of the thread. -/
def slaveReady (id : Fin n) (args : Args ν) (ret : Ret) : Pool n ν :=
  { p.setSlave id { p.slaves id with thread := .finished args ret } with
    readyQueue := p.readyQueue ++ [id] }

end Pool

/-! ## What happens outside the master -/

/-- * `interrupt`: the flag of the master is set, as `interrupt()` does first
* `interruptSlave`: that of a slave is set, by `interrupt()` or because its time is over
* `count`: a slave counts nodes
* `finish`: the search of a slave returns a score
* `abort`: it returns after a stop -/
inductive Env (n : Nat) where
  | interrupt
  | interruptSlave (id : Fin n)
  | count (id : Fin n) (nodes : Nodes)
  | finish (id : Fin n) (score : Int)
  | abort (id : Fin n)
  deriving DecidableEq

/-- A step of the environment, if it can happen. -/
def Pool.env (p : Pool n ν) : Env n → Option (Pool n ν)
  | .interrupt => some { p with stop := true }
  | .interruptSlave id => some (p.setSlave id { p.slaves id with stop := true })
  | .count id nodes =>
    match (p.slaves id).thread with
    | .running _ => some (p.setSlave id { p.slaves id with nodes := (p.slaves id).nodes + nodes })
    | _ => none
  | .finish id score =>
    match (p.slaves id).thread with
    | .running args => some (p.slaveReady id args ⟨score, false⟩)
    | _ => none
  | .abort id =>
    match (p.slaves id).thread with
    | .running args => if (p.slaves id).stop then some (p.slaveReady id args .abort) else none
    | _ => none

/-! ## What the steps do to each slave -/

namespace Pool

variable {p p' : Pool n ν} {id i : Fin n}

@[simp] theorem setSlave_self (p : Pool n ν) (id : Fin n) (s : Slave ν) :
    (p.setSlave id s).slaves id = s := Function.update_self _ _ _

theorem setSlave_of_ne (p : Pool n ν) (s : Slave ν) (h : i ≠ id) :
    (p.setSlave id s).slaves i = p.slaves i := Function.update_of_ne h _ _

@[simp] theorem setSlave_readyQueue (p : Pool n ν) (id : Fin n) (s : Slave ν) :
    (p.setSlave id s).readyQueue = p.readyQueue := rfl

theorem findFreeSlave_eq_some (h : p.findFreeSlave = some id) : (p.slaves id).free = true := by
  have hid := List.find?_some h
  exact hid

theorem findFreeSlave_eq_none : p.findFreeSlave = none ↔ ∀ i, (p.slaves i).free = false := by
  simp [findFreeSlave]

theorem allSlavesFree_iff : p.allSlavesFree = true ↔ ∀ i, (p.slaves i).free = true := by
  simp [allSlavesFree]

@[simp] theorem slaveReady_self (p : Pool n ν) (id : Fin n) (args : Args ν) (ret : Ret) :
    (p.slaveReady id args ret).slaves id = { p.slaves id with thread := .finished args ret } :=
  setSlave_self _ _ _

theorem slaveReady_of_ne (p : Pool n ν) (args : Args ν) (ret : Ret) (h : i ≠ id) :
    (p.slaveReady id args ret).slaves i = p.slaves i := setSlave_of_ne _ _ h

/-- A search returns. -/
theorem env_finish {score : Int} (h : p.env (.finish id score) = some p') :
    ∃ args, (p.slaves id).thread = .running args ∧ p' = p.slaveReady id args ⟨score, false⟩ := by
  simp only [env] at h
  split at h
  · rename_i args hrun
    exact ⟨args, hrun, (Option.some.inj h).symm⟩
  · cases h

/-- It returns after a stop. -/
theorem env_abort (h : p.env (.abort id) = some p') :
    ∃ args, (p.slaves id).thread = .running args ∧ (p.slaves id).stop = true ∧
      p' = p.slaveReady id args .abort := by
  simp only [env] at h
  split at h
  · rename_i args hrun
    obtain ⟨hstop, h⟩ := Option.ite_none_right_eq_some.mp h
    exact ⟨args, hrun, hstop, (Option.some.inj h).symm⟩
  · cases h

/-- **What a step of the environment can do**: change what slaves have counted or whether they
have to stop, or end a running search. -/
theorem env_cases {e : Env n} (h : p.env e = some p') :
    (p'.readyQueue = p.readyQueue ∧ ∀ i, ∃ stop nodes,
      p'.slaves i = { p.slaves i with stop := stop, nodes := nodes }) ∨
    ∃ id args ret, (p.slaves id).thread = .running args ∧
      (e = .finish id ret.score ∧ ret.aborted = false ∨ e = .abort id ∧ ret = .abort) ∧
      p' = p.slaveReady id args ret := by
  have hset : ∀ id stop nodes i, ∃ stop' nodes',
      (p.setSlave id { p.slaves id with stop := stop, nodes := nodes }).slaves i =
        { p.slaves i with stop := stop', nodes := nodes' } := by
    intro id stop nodes i
    by_cases hi : i = id
    · subst hi
      exact ⟨stop, nodes, setSlave_self _ _ _⟩
    · exact ⟨_, _, setSlave_of_ne p _ hi⟩
  cases e with
  | interrupt =>
    obtain rfl := Option.some.inj h
    exact .inl ⟨rfl, fun i => ⟨_, _, rfl⟩⟩
  | interruptSlave id =>
    obtain rfl := Option.some.inj h
    exact .inl ⟨rfl, hset id _ _⟩
  | count id nodes =>
    simp only [env] at h
    split at h
    · obtain rfl := Option.some.inj h
      exact .inl ⟨rfl, hset id _ _⟩
    · cases h
  | finish id score =>
    obtain ⟨args, hrun, rfl⟩ := env_finish h
    exact .inr ⟨id, args, _, hrun, .inl ⟨rfl, rfl⟩, rfl⟩
  | abort id =>
    obtain ⟨args, hrun, -, rfl⟩ := env_abort h
    exact .inr ⟨id, args, _, hrun, .inr ⟨rfl, rfl⟩, rfl⟩

/-- The flag of the master stays set. -/
theorem env_stop {e : Env n} (h : p.env e = some p') (hstop : p.stop = true) : p'.stop = true := by
  cases e with
  | interrupt =>
    obtain rfl := Option.some.inj h
    rfl
  | interruptSlave id =>
    obtain rfl := Option.some.inj h
    exact hstop
  | count id nodes =>
    simp only [env] at h
    split at h
    · obtain rfl := Option.some.inj h
      exact hstop
    · cases h
  | finish id score =>
    obtain ⟨_, _, rfl⟩ := env_finish h
    exact hstop
  | abort id =>
    obtain ⟨_, _, _, rfl⟩ := env_abort h
    exact hstop

/-- A thread that can be joined has ended. -/
theorem joinSlave_eq_some {ret : Ret} : p.joinSlave id = some (ret, p') ↔
    ∃ args, (p.slaves id).thread = .finished args ret ∧
      p' = (p.setSlave id { p.slaves id with thread := .none, stop := true }).getSlaveStatistics id := by
  unfold joinSlave Slave.stopThread
  cases (p.slaves id).thread <;> simp [eq_comm]

end Pool

end HoiChess.ParallelSearch
