import HoiChess.Common.Scheduling
import Mathlib.Algebra.BigOperators.Fin
import Mathlib.Data.BitVec

/-!
# Node counts of the parallel search

The master adds up what its slaves count: each time it has joined the thread of a slave, it adds the
difference to what it saw last.  `Pool.Tallies` says that its own nodes and what it has seen make up
its total, and that it has seen all of a slave without a thread.  Every step keeps this, and so does a
new search with its `reset_statistics` (`System.node_counts`).  The counters are 64 bits wide and
may overflow.
-/

namespace HoiChess.ParallelSearch

open Transition

variable {n : Nat} {ν : Type}

/-! ## Adding up nodes -/

namespace Nodes

@[ext] theorem ext {x y : Nodes} (h : x.fullwidth = y.fullwidth) (h' : x.quiesce = y.quiesce) :
    x = y := by
  cases x
  cases y
  simp_all

@[simp] theorem fullwidth_zero : (0 : Nodes).fullwidth = 0 := rfl
@[simp] theorem quiesce_zero : (0 : Nodes).quiesce = 0 := rfl
@[simp] theorem fullwidth_add (x y : Nodes) : (x + y).fullwidth = x.fullwidth + y.fullwidth := rfl
@[simp] theorem quiesce_add (x y : Nodes) : (x + y).quiesce = x.quiesce + y.quiesce := rfl
@[simp] theorem fullwidth_sub (x y : Nodes) : (x - y).fullwidth = x.fullwidth - y.fullwidth := rfl
@[simp] theorem quiesce_sub (x y : Nodes) : (x - y).quiesce = x.quiesce - y.quiesce := rfl

instance : Neg Nodes := ⟨fun x => ⟨-x.fullwidth, -x.quiesce⟩⟩

@[simp] theorem fullwidth_neg (x : Nodes) : (-x).fullwidth = -x.fullwidth := rfl
@[simp] theorem quiesce_neg (x : Nodes) : (-x).quiesce = -x.quiesce := rfl

instance : AddCommGroup Nodes where
  add_assoc x y z := by ext <;> simp [BitVec.add_assoc]
  zero_add x := by ext <;> simp
  add_zero x := by ext <;> simp
  add_comm x y := by ext <;> simp [BitVec.add_comm]
  neg_add_cancel x := by ext <;> simp
  sub_eq_add_neg x y := by ext <;> simp [BitVec.sub_eq_add_neg]
  nsmul := nsmulRec
  zsmul := zsmulRec

end Nodes

/-! ## A new search -/

namespace Pool

/-- `reset_statistics` -/
def resetStatistics (p : Pool n ν) : Pool n ν :=
  { p with slaves := fun i => { p.slaves i with nodes := 0, lastNodes := 0 }, nodes := 0 }

/-- **The total of the master**, with its own nodes and those that each slave has counted. -/
structure Tallies (p : Pool n ν) (own : Nodes) (counts : Fin n → Nodes) : Prop where
  total : p.nodes = own + ∑ i, (p.slaves i).lastNodes
  seen : ∀ i, (p.slaves i).thread = .none → (p.slaves i).lastNodes = (p.slaves i).nodes
  counts : ∀ i, (p.slaves i).nodes = counts i

variable {p p' : Pool n ν} {own : Nodes} {counts : Fin n → Nodes} {id : Fin n} {s : Slave ν}

theorem Tallies.reset (p : Pool n ν) : p.resetStatistics.Tallies 0 fun _ => 0 where
  total := by
    show (0 : Nodes) = 0 + ∑ _ : Fin n, 0
    rw [Finset.sum_const_zero, add_zero]
  seen _ _ := rfl
  counts _ := rfl

/-- A slave changes, but not what it has counted, nor what the master has seen of it. -/
theorem Tallies.setSlave (h : p.Tallies own counts) (hnodes : s.nodes = (p.slaves id).nodes)
    (hlast : s.lastNodes = (p.slaves id).lastNodes)
    (hthread : s.thread = .none → (p.slaves id).thread = .none) :
    (p.setSlave id s).Tallies own counts := by
  have hs : ∀ i, ((p.setSlave id s).slaves i).nodes = (p.slaves i).nodes ∧
      ((p.setSlave id s).slaves i).lastNodes = (p.slaves i).lastNodes ∧
      (((p.setSlave id s).slaves i).thread = .none → (p.slaves i).thread = .none) := by
    intro i
    by_cases hi : i = id
    · subst hi
      rw [setSlave_self]
      exact ⟨hnodes, hlast, hthread⟩
    · rw [setSlave_of_ne _ _ hi]
      exact ⟨rfl, rfl, fun h => h⟩
  refine ⟨?_, fun i hi => ?_, fun i => (hs i).1.trans (h.counts i)⟩
  · show p.nodes = _
    simp only [(hs _).2.1]
    exact h.total
  · rw [(hs i).1, (hs i).2.1]
    exact h.seen i ((hs i).2.2 hi)

/-- Queue and flag say nothing about the counts. -/
theorem Tallies.congr (h : p.Tallies own counts) (hslaves : p'.slaves = p.slaves)
    (hnodes : p'.nodes = p.nodes) : p'.Tallies own counts := by
  refine ⟨?_, ?_, ?_⟩
  · rw [hslaves, hnodes]
    exact h.total
  · rw [hslaves]
    exact h.seen
  · rw [hslaves]
    exact h.counts

/-- The master counts nodes. -/
theorem Tallies.count (h : p.Tallies own counts) (nodes : Nodes) :
    Tallies { p with nodes := p.nodes + nodes } (own + nodes) counts where
  total := by
    show p.nodes + nodes = _
    rw [h.total, add_right_comm]
  seen := h.seen
  counts := h.counts

/-- **The thread of a slave is joined**, and the master sees what it has counted. -/
theorem Tallies.join {ret : Ret} (h : p.Tallies own counts) (hjoin : p.joinSlave id = some (ret, p')) :
    p'.Tallies own counts := by
  obtain ⟨args, -, rfl⟩ := joinSlave_eq_some.mp hjoin
  generalize hq : p.setSlave id { p.slaves id with thread := .none, stop := true } = q
  have hself : q.slaves id = { p.slaves id with thread := .none, stop := true } := by
    rw [← hq]
    exact setSlave_self _ _ _
  have hothers : ∀ i, i ≠ id → q.slaves i = p.slaves i := fun i hi => by
    rw [← hq]
    exact setSlave_of_ne _ _ hi
  have hqnodes : q.nodes = p.nodes := by
    rw [← hq]
    rfl
  have hid : (q.getSlaveStatistics id).slaves id =
      { q.slaves id with lastNodes := (q.slaves id).nodes } := setSlave_self _ _ _
  have hrest : ∀ i, i ≠ id → (q.getSlaveStatistics id).slaves i = p.slaves i := fun i hi =>
    (setSlave_of_ne q _ hi).trans (hothers i hi)
  have hcounts : ∀ i, ((q.getSlaveStatistics id).slaves i).nodes = (p.slaves i).nodes := by
    intro i
    by_cases hi : i = id
    · subst hi
      rw [hid, hself]
    · rw [hrest i hi]
  refine ⟨?_, fun i hi => ?_, fun i => (hcounts i).trans (h.counts i)⟩
  · have hsum := sum_change Slave.lastNodes hrest
    rw [hid, hself] at hsum
    show q.nodes + ((q.slaves id).nodes - (q.slaves id).lastNodes) = _
    rw [hself, hqnodes, h.total]
    show own + ∑ i, (p.slaves i).lastNodes + ((p.slaves id).nodes - (p.slaves id).lastNodes) =
      own + ∑ i, ((q.getSlaveStatistics id).slaves i).lastNodes
    rw [add_assoc, ← add_sub_assoc, ← hsum, add_sub_cancel_right]
  · by_cases he : i = id
    · subst he
      rw [hid]
    · rw [hrest i he] at hi ⊢
      exact h.seen i hi

/-- The first one in the queue is joined. -/
theorem Tallies.joinFirst {queue : List (Fin n)} {ret : Ret} (h : p.Tallies own counts)
    (hjoin : Pool.joinSlave { p with readyQueue := queue } id = some (ret, p')) :
    p'.Tallies own counts := by
  have hp : Tallies { p with readyQueue := queue } own counts := h.congr rfl rfl
  exact hp.join hjoin

/-- What each slave counts in a step of the environment. -/
def envNodes : Env n → Fin n → Nodes
  | .count id nodes, i => if i = id then nodes else 0
  | _, _ => 0

/-- A slave that ends its call has counted already. -/
theorem Tallies.slaveReady (h : p.Tallies own counts) (args : Args ν) (ret : Ret) :
    (p.slaveReady id args ret).Tallies own counts := by
  have hslave : (p.setSlave id { p.slaves id with thread := .finished args ret }).Tallies own counts := by
    refine h.setSlave rfl rfl fun ht => ?_
    cases ht
  exact hslave.congr rfl rfl

/-- **What happens outside the master**: slaves count. -/
theorem Tallies.env {e : Env n} (h : p.Tallies own counts) (he : p.env e = some p') :
    p'.Tallies own fun i => counts i + envNodes e i := by
  have hsame : (∀ i, envNodes e i = 0) → p'.Tallies own counts →
      p'.Tallies own fun i => counts i + envNodes e i := by
    intro hzero h'
    simpa only [hzero, add_zero] using h'
  cases e with
  | interrupt =>
    obtain rfl := Option.some.inj he
    exact hsame (fun _ => rfl) (h.congr rfl rfl)
  | interruptSlave id =>
    obtain rfl := Option.some.inj he
    exact hsame (fun _ => rfl) (h.setSlave rfl rfl fun ht => ht)
  | count id nodes =>
    simp only [Pool.env] at he
    split at he
    · rename_i args hrun
      obtain rfl := Option.some.inj he
      have hs : ∀ i, (p.setSlave id { p.slaves id with nodes := (p.slaves id).nodes + nodes }).slaves i =
          { p.slaves i with nodes := (p.slaves i).nodes + envNodes (.count id nodes) i } := by
        intro i
        by_cases hi : i = id
        · subst hi
          rw [setSlave_self, envNodes, if_pos rfl]
        · rw [setSlave_of_ne _ _ hi, envNodes, if_neg hi, add_zero]
      refine ⟨?_, fun i hi => ?_, fun i => ?_⟩
      · show p.nodes = _
        simp only [hs]
        exact h.total
      · rw [hs] at hi ⊢
        have hne : i ≠ id := by
          rintro rfl
          cases hrun.symm.trans hi
        show (p.slaves i).lastNodes = (p.slaves i).nodes + _
        rw [envNodes, if_neg hne, add_zero]
        exact h.seen i hi
      · rw [hs, ← h.counts i]
    · cases he
  | finish id score =>
    obtain ⟨args, -, rfl⟩ := env_finish he
    exact hsame (fun _ => rfl) (h.slaveReady args _)
  | abort id =>
    obtain ⟨args, -, -, rfl⟩ := env_abort he
    exact hsame (fun _ => rfl) (h.slaveReady args _)

/-- A thread is started, or runs already. -/
theorem startThread_keeps (s : Slave ν) (args : Args ν) :
    (s.startThread args).nodes = s.nodes ∧ (s.startThread args).lastNodes = s.lastNodes ∧
      ((s.startThread args).thread = .none → s.thread = .none) := by
  unfold Slave.startThread
  split
  · exact ⟨rfl, rfl, fun ht => by cases ht⟩
  · exact ⟨rfl, rfl, fun ht => ht⟩

end Pool

/-! ## The steps of the master -/

variable {own : Nodes} {counts : Fin n → Nodes}

/-- **No step of the loop changes the tally.** -/
theorem LoopState.Steps.tallies {cfg : Config ν} {a : Args ν} {timeout : Bool} {s t : LoopState n ν}
    {outputs : List (Output n ν)} (h : s.Steps cfg a timeout t outputs)
    (hs : s.pool.Tallies own counts) : t.pool.Tallies own counts := by
  cases h with
  | @start id c rest hpoint htodo hid =>
    obtain ⟨hnodes, hlast, hthread⟩ :=
      Pool.startThread_keeps (s.pool.slaves id) (s.slaveArgs cfg a c)
    exact hs.setSlave hnodes hlast hthread
  | complete => exact hs
  | busy => exact hs
  | stop => exact hs.congr rfl rfl
  | goOn => exact hs.congr rfl rfl
  | collect hpoint hqueue hjoin => exact hs.joinFirst hjoin
  | @again id ret c hpoint hnode hfailed =>
    obtain ⟨hnodes, hlast, hthread⟩ := Pool.startThread_keeps (s.pool.slaves id) (s.againArgs a c)
    exact hs.setSlave hnodes hlast hthread
  | accept => exact hs.setSlave rfl rfl fun ht => ht
  | skip => exact hs
  | interrupt => exact hs.setSlave rfl rfl fun ht => ht
  | clear => exact hs.congr rfl rfl
  | join hpoint hjoin => exact (hs.join hjoin).setSlave rfl rfl fun ht => ht

namespace System

/-- What the master counts itself. -/
def ownNodes : List (Frame n ν) → Choice ν → Nodes
  | .base _ :: _, .count nodes => nodes
  | .parallel _ .entered :: _, .go => ⟨1, 0⟩
  | _, _ => 0

variable [DecidableEq ν] {cfg : Config ν} {pool : Pool n ν} {stack : List (Frame n ν)}
  {choice : Choice ν} {res : System n ν × List (Output n ν)}

omit [DecidableEq ν] in
/-- **A step of the master adds what it counts.** -/
theorem MasterSteps.tallies (h : MasterSteps cfg pool stack choice res) (hs : pool.Tallies own counts) :
    res.1.pool.Tallies (own + ownNodes stack choice) counts := by
  have hsame : ∀ {pool' : Pool n ν}, pool'.Tallies own counts → ownNodes stack choice = 0 →
      pool'.Tallies (own + ownNodes stack choice) counts := by
    intro pool' h' hzero
    rwa [hzero, add_zero]
  cases h with
  | count => exact hs.count _
  | probe hdepth => exact hs.count _
  | serialStart hid =>
    obtain ⟨hnodes, hlast, hthread⟩ := Pool.startThread_keeps (pool.slaves _) _
    exact hsame (hs.setSlave hnodes hlast hthread) rfl
  | serialJoin timeout hqueue hjoin =>
    have hjoined : Pool.Tallies (Pool.checkTime _ timeout) own counts :=
      (hs.joinFirst hjoin).congr rfl rfl
    exact hsame (hjoined.setSlave rfl rfl fun ht => ht) rfl
  | answer hdepth hpoint => exact hsame hs (by rcases hpoint with rfl | rfl <;> rfl)
  | loop timeout hstep => exact hsame (LoopState.Steps.tallies hstep hs) rfl
  | firstStopped timeout hstop => exact hsame (hs.congr rfl rfl) rfl
  | first timeout hstop => exact hsame (hs.congr rfl rfl) rfl
  | _ => exact hsame hs rfl

/-! ## All runs -/

/-- The nodes counted since the last `reset_statistics`, by the master and by each slave. -/
structure Tally (n : Nat) where
  own : Nodes
  slaves : Fin n → Nodes

/-- What happens: `main`, which begins a search, and the steps of the search. -/
inductive Event (n : Nat) (ν : Type) where
  | main
  | step (action : Action n ν)

/-- `start_thread` clears the flag, and `main` resets the statistics. -/
def begin (s : System n ν) : System n ν :=
  ⟨{ s.pool.resetStatistics with stop := false }, [.base false]⟩

def Tally.add (c : Tally n) (s : System n ν) : Action n ν → Tally n
  | .env e => { c with slaves := fun i => c.slaves i + Pool.envNodes e i }
  | .master choice => { c with own := c.own + ownNodes s.stack choice }

/-- An event, if it can happen: a search begins outside all calls. -/
def event (cfg : Config ν) (x : System n ν × Tally n) :
    Event n ν → Option ((System n ν × Tally n) × List (Output n ν))
  | .main =>
    match x.1.stack with
    | [.base _] => some ((x.1.begin, ⟨0, fun _ => 0⟩), [])
    | _ => none
  | .step action => (x.1.step cfg action).map fun (t, outputs) => ((t, x.2.add x.1 action), outputs)

def Happens (cfg : Config ν) (x : System n ν × Tally n) (l : Event n ν × List (Output n ν))
    (y : System n ν × Tally n) : Prop :=
  event cfg x l.1 = some (y, l.2)

theorem event_main {x y : System n ν × Tally n} {outputs : List (Output n ν)}
    (h : event cfg x .main = some (y, outputs)) :
    ∃ tainted, x.1.stack = [.base tainted] ∧ y = (x.1.begin, ⟨0, fun _ => 0⟩) := by
  simp only [event] at h
  split at h
  · rename_i tainted hstack
    exact ⟨tainted, hstack, (Prod.mk.inj (Option.some.inj h)).1.symm⟩
  · cases h

theorem event_step {x y : System n ν × Tally n} {action : Action n ν} {outputs : List (Output n ν)}
    (h : event cfg x (.step action) = some (y, outputs)) :
    ∃ t, x.1.step cfg action = some (t, outputs) ∧ y = (t, x.2.add x.1 action) := by
  obtain ⟨⟨t, outputs'⟩, hstep, he⟩ := Option.map_eq_some_iff.mp h
  obtain ⟨rfl, rfl⟩ := Prod.mk.inj he
  exact ⟨t, hstep, rfl⟩

theorem Happens.inv {l : Event n ν × List (Output n ν)} {x y : System n ν × Tally n}
    (h : Happens cfg x l y) (hx : Inv cfg x.1) : Inv cfg y.1 := by
  obtain ⟨e, outputs⟩ := l
  cases e with
  | main =>
    obtain ⟨tainted, hstack, rfl⟩ := event_main h
    obtain ⟨f, rest, hstack', hf, -⟩ := hx.top
    rw [hstack] at hstack'
    cases hstack'
    have hquiet : Pool.Quiet _ := hf
    exact ⟨.base false, [], rfl, ⟨fun i => hquiet.1 i, hquiet.2⟩, fun _ hg => (List.not_mem_nil hg).elim⟩
  | step action =>
    obtain ⟨t, hstep, rfl⟩ := event_step h
    have hs : x.1.Step cfg (action, outputs) t := hstep
    exact (hs.inv hx).1

/-- **Each event keeps the tally.** -/
theorem Happens.tallies {l : Event n ν × List (Output n ν)} {x y : System n ν × Tally n}
    (h : Happens cfg x l y) (hx : x.1.pool.Tallies x.2.own x.2.slaves) :
    y.1.pool.Tallies y.2.own y.2.slaves := by
  obtain ⟨e, outputs⟩ := l
  cases e with
  | main =>
    obtain ⟨tainted, -, rfl⟩ := event_main h
    exact (Pool.Tallies.reset _).congr rfl rfl
  | step action =>
    obtain ⟨t, hstep, rfl⟩ := event_step h
    cases action with
    | env e =>
      obtain ⟨pool, he, hres⟩ := Option.map_eq_some_iff.mp hstep
      obtain ⟨rfl, -⟩ := Prod.mk.inj hres
      exact hx.env he
    | master choice => exact (masterStep_cases hstep).tallies hx

omit [DecidableEq ν] in
/-- Free slaves have no thread. -/
theorem Inv.thread_none {s : System n ν} (hs : Inv cfg s) {i : Fin n}
    (hfree : (s.pool.slaves i).free = true) : (s.pool.slaves i).thread = .none := by
  obtain ⟨_, _, taken, hok, -⟩ := hs.ok
  have hi := hok.has i
  unfold Pool.Has at hi
  split at hi
  · exact hi.2
  · rcases hi with hidle | hwork
    · exact hidle.2.1
    · cases hfree.symm.trans hwork.not_free

/-- **Parallel node counts add up**: after any run from `reset_statistics` on, whenever all slaves are
free, the total of the master is what it has counted itself and what the slaves have. -/
theorem node_counts {ls : List (Event n ν × List (Output n ν))} {s : System n ν} {c : Tally n}
    (hrun : Runs (Happens cfg) ((create n ν).begin, ⟨0, fun _ => 0⟩) ls (s, c))
    (hfree : s.pool.allSlavesFree = true) :
    s.pool.nodes = c.own + ∑ i, (s.pool.slaves i).nodes ∧
      ∀ i, (s.pool.slaves i).nodes = c.slaves i := by
  have hinv : Inv cfg s := hrun.invariant (P := fun x => Inv cfg x.1) create_inv
    fun _ _ _ hx hstep => hstep.inv hx
  have htallies : s.pool.Tallies c.own c.slaves := hrun.invariant
    (P := fun x => x.1.pool.Tallies x.2.own x.2.slaves)
    ((Pool.Tallies.reset _).congr rfl rfl) fun _ _ _ hx hstep => hstep.tallies hx
  refine ⟨?_, htallies.counts⟩
  rw [htallies.total]
  congr 1
  refine Finset.sum_congr rfl fun i _ => ?_
  exact htallies.seen i (hinv.thread_none (Pool.allSlavesFree_iff.mp hfree i))

/-- The slave counts three nodes for the second move, is stopped because the time is over, and
counts two more in the next search. -/
def countingTwice : List (Event 1 Nat) :=
  [.step (.master (.call ⟨0, 0, 2, -10, 10⟩)), .step (.master .go), .step (.master .go),
    .step (.master .go), .step (.master .go), .step (.master (.order [1, 2])), .step (.master .go),
    .step (.master (.answer 0)), .step (.master .go), .step (.master .go), .step (.master .go),
    .step (.env (.count 0 ⟨3, 0⟩)), .step (.master .timeout), .step (.master .go),
    .step (.env (.abort 0)), .step (.master .go), .step (.master .go), .step (.master .go),
    .step (.master .go), .main, .step (.master (.call ⟨0, 0, 1, -10, 10⟩)), .step (.master .go),
    .step (.master .go), .step (.env (.count 0 ⟨1, 1⟩)), .step (.env (.finish 0 5)),
    .step (.master .go)]

/-- The counts of both searches add up, and the second one starts anew. -/
theorem node_counts_twice : ∃ ls s c,
    Runs (Happens twoMoves) ((create 1 Nat).begin, ⟨0, fun _ => 0⟩) ls (s, c) ∧ ls ≠ [] ∧
      s.pool.nodes = ⟨1, 1⟩ ∧ s.pool.nodes = c.own + ∑ i, (s.pool.slaves i).nodes := by
  have htrace : (trace (event twoMoves) ((create 1 Nat).begin, ⟨0, fun _ => 0⟩) countingTwice).any
      (fun r => decide (r.1 ≠ [] ∧ r.2.1.pool.nodes = ⟨1, 1⟩) && r.2.1.pool.allSlavesFree) = true := by
    decide +kernel
  obtain ⟨⟨ls, s, c⟩, hs, h⟩ := (Option.any_eq_true _ _).mp htrace
  rw [Bool.and_eq_true, decide_eq_true_eq] at h
  obtain ⟨⟨hne, hnodes⟩, hfree⟩ := h
  have hrun := runs_of_trace hs
  exact ⟨ls, s, c, hrun, hne, hnodes, (node_counts hrun hfree).1⟩

end System

end HoiChess.ParallelSearch
