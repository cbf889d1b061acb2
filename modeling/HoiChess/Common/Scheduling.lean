import HoiChess.Common.ParallelSearch
import HoiChess.Common.SlavePool

/-!
# Slaves are given out and taken back in order

Whoever calls `search` finds all slaves free, and finds them free again when it returns.  In the
loop each legal move is either still to be searched, or with a slave, or has its result, so that
a loop that comes to its end has one result of each (`System.schedule`).  The number of a slave is
in `ready_queue` at most once, and only while the slave is busy; but in `abort_all_slaves` a slave is
freed before the queue is cleared.
-/

namespace HoiChess.ParallelSearch

open Transition

variable {n : Nat} {ν : Type}

/-! ## The loop -/

/-- The slaves at a point of the loop. -/
def LoopPoint.Fits : LoopPoint n → Pool n ν → Prop
  | .assign, p => p.Ok true 0 none
  | .check, p => p.Ok true 0 none
  | .wait, p => p.Ok true 0 none
  | .collected id _, p => p.Ok true 0 (some id)
  | .interrupting i _, p => p.Ok true i none
  | .joining i _, p => p.Ok true i none ∧ (p.slaves i).free = false
  | .done _, p => p.Quiet
  | .aborted, p => p.Quiet

namespace LoopState

/-- Each move has its result, is with a slave or still to be searched. -/
def Balance (moves : List ν) (s : LoopState n ν) : Prop :=
  (s.results : Multiset ν) + s.pool.load + (s.todo : Multiset ν) = moves

/-- The moves, until the loop is left. -/
def Accounted (moves : List ν) (s : LoopState n ν) : Prop :=
  match s.point with
  | .assign => s.Balance moves
  | .check => s.Balance moves
  | .wait => s.Balance moves
  | .collected _ _ => s.Balance moves
  | .done false => 0 < n → s.results.Perm moves
  | _ => True

variable {cfg : Config ν} {a : Args ν} {timeout : Bool} {moves : List ν} {s t : LoopState n ν}
  {outputs : List (Output n ν)} {point : LoopPoint n}

theorem fits_of (h : s.point.Fits s.pool) (hpoint : s.point = point) : point.Fits s.pool :=
  hpoint ▸ h

theorem balance_of (h : s.Accounted moves) (hpoint : s.point = .assign ∨ s.point = .check ∨
    s.point = .wait ∨ ∃ id ret, s.point = .collected id ret) : s.Balance moves := by
  unfold Accounted at h
  rcases hpoint with hpoint | hpoint | hpoint | ⟨_, _, hpoint⟩ <;> rwa [hpoint] at h

theorem startThread_eq {s : Slave ν} (h : s.thread = .none) (args : Args ν) :
    s.startThread args = { s with thread := .running args, stop := false } := by
  unfold Slave.startThread
  rw [h]

/-- **A step of the loop keeps the slaves in order.** -/
theorem Steps.fits (h : s.Steps cfg a timeout t outputs) (hs : s.point.Fits s.pool) :
    t.point.Fits t.pool := by
  cases h with
  | @start id c rest hpoint htodo hid =>
    have hok : s.pool.Ok true 0 none := fits_of hs hpoint
    have hfree := Pool.findFreeSlave_eq_some hid
    have hrun : ((s.pool.slaves id).startThread (s.slaveArgs cfg a c)).thread =
        .running (s.slaveArgs cfg a c) := by
      rw [startThread_eq (hok.idle_of_free hfree).2.1]
    show s.point.Fits _
    rw [hpoint]
    exact hok.give hfree ⟨c, rfl, rfl, rfl⟩ hrun
  | complete hpoint hnone hfree =>
    have hok : s.pool.Ok true 0 none := fits_of hs hpoint
    exact hok.quiet hfree
  | busy hpoint hnone hbusy =>
    have hok : s.pool.Ok true 0 none := fits_of hs hpoint
    exact hok
  | stop hpoint hstop =>
    have hok : s.pool.Ok true 0 none := fits_of hs hpoint
    exact hok.checkTime timeout
  | goOn hpoint hstop =>
    have hok : s.pool.Ok true 0 none := fits_of hs hpoint
    exact hok.checkTime timeout
  | collect hpoint hqueue hjoin =>
    have hok : s.pool.Ok true 0 none := fits_of hs hpoint
    exact hok.join hqueue hjoin
  | @again id ret c hpoint hnode hfailed =>
    have hok : s.pool.Ok true 0 (some id) := fits_of hs hpoint
    obtain ⟨⟨d, hholds⟩, hthread⟩ := hok.taken_of
    have hstart := startThread_eq hthread (s.againArgs a c)
    have hrun : ((s.pool.slaves id).startThread (s.againArgs a c)).thread =
        .running (s.againArgs a c) := by
      rw [hstart]
    refine hok.giveAgain ⟨d, ?_⟩ hrun
    rw [hstart]
    exact hholds
  | @accept id ret c hpoint hnode hfinal =>
    have hok : s.pool.Ok true 0 (some id) := fits_of hs hpoint
    have hidle : Slave.Idle { s.pool.slaves id with nodealloc := none, free := true } :=
      ⟨rfl, hok.taken_of.2, rfl⟩
    have hpool := hok.release hidle
    show LoopPoint.Fits (if ret.negate.score ≥ a.beta then _ else _) _
    split
    · exact hpool
    · exact hpool
  | skip hpoint hi hfree =>
    have hok := fits_of hs hpoint
    exact hok.skip hi hfree
  | interrupt hpoint hi hbusy =>
    have hok := fits_of hs hpoint
    refine ⟨hok.interrupt _, ?_⟩
    rw [Pool.setSlave_self]
    exact hbusy
  | @clear i cutoff hpoint hi =>
    have hok := fits_of hs hpoint
    cases cutoff with
    | true => exact hok.clear hi
    | false => exact hok.clear hi
  | join hpoint hjoin =>
    have hok := (fits_of hs hpoint).1
    exact hok.sweep _ hjoin

/-- A slave that starts takes the first of the moves that are left. -/
theorem balance_start {id : Fin n} {c : ν} {rest : List ν} (hok : s.pool.Ok true 0 none)
    (hbal : s.Balance moves) (htodo : s.todo = c :: rest) (hid : s.pool.findFreeSlave = some id) :
    (s.start cfg a id c rest).Balance moves := by
  have hload : (s.start cfg a id c rest).pool.load + _ = _ :=
    Pool.load_change fun i hi => Pool.setSlave_of_ne _ _ hi
  have hnew : ((s.start cfg a id c rest).pool.slaves id).load = {c} := by
    unfold LoopState.start
    rw [Pool.setSlave_self]
    rfl
  rw [(hok.idle_of_free (Pool.findFreeSlave_eq_some hid)).load, hnew, add_zero] at hload
  unfold Balance at hbal ⊢
  rw [hload, ← hbal, htodo, ← Multiset.cons_coe, ← Multiset.singleton_add]
  show _ + _ + (rest : Multiset ν) = _
  simp only [add_assoc]
  rfl

/-- With all slaves free and no move left to give, every move has its result. -/
theorem perm_complete (hok : s.pool.Ok true 0 none) (hbal : s.Balance moves)
    (hnone : s.todo = [] ∨ s.pool.findFreeSlave = none) (hfree : s.pool.allSlavesFree = true)
    (hn : 0 < n) : s.results.Perm moves := by
  have htodo : s.todo = [] := hnone.resolve_right fun hno => by
    have hbusy := Pool.findFreeSlave_eq_none.mp hno ⟨0, hn⟩
    cases hbusy.symm.trans (Pool.allSlavesFree_iff.mp hfree ⟨0, hn⟩)
  unfold Balance at hbal
  rw [(hok.quiet hfree).load, htodo, add_zero, Multiset.coe_nil, add_zero] at hbal
  exact Multiset.coe_eq_coe.mp hbal

/-- A slave that searches its move again keeps it. -/
theorem balance_again {id : Fin n} {c : ν} (hok : s.pool.Ok true 0 (some id))
    (hbal : s.Balance moves) : (s.again a id c).Balance moves := by
  have hload : (s.again a id c).pool.load + _ = _ :=
    Pool.load_change fun i hi => Pool.setSlave_of_ne _ _ hi
  have hnew : ((s.again a id c).pool.slaves id).load = (s.pool.slaves id).load := by
    unfold LoopState.again
    rw [Pool.setSlave_self, startThread_eq hok.taken_of.2]
    rfl
  rw [hnew] at hload
  show _ + (s.again a id c).pool.load + _ = _
  rw [add_right_cancel hload]
  exact hbal

/-- A move whose result is taken goes from its slave to the results. -/
theorem balance_accept {id : Fin n} {ret : Ret} {c : ν} (hok : s.pool.Ok true 0 (some id))
    (hbal : s.Balance moves) (hnode : (s.pool.slaves id).node = some c) :
    (s.accept a id c ret).Balance moves := by
  have hload : (s.accept a id c ret).pool.load + _ = _ :=
    Pool.load_change fun i hi => Pool.setSlave_of_ne _ _ hi
  have hold : (s.pool.slaves id).load = {c} := by
    obtain ⟨⟨d, hholds⟩, -⟩ := hok.taken_of
    rw [hholds.load, Option.some.inj (hholds.2.1.symm.trans hnode)]
  have hnew : ((s.accept a id c ret).pool.slaves id).load = 0 := by
    unfold LoopState.accept Pool.freeSlave
    rw [Pool.setSlave_self]
    rfl
  rw [hold, hnew, add_zero] at hload
  unfold Balance at hbal ⊢
  rw [← hbal, ← hload]
  show ((s.results ++ [c] : List ν) : Multiset ν) + _ + _ = _
  rw [← Multiset.coe_add, Multiset.coe_singleton]
  show _ = _ + (_ + _) + (s.todo : Multiset ν)
  rw [add_right_comm (s.results : Multiset ν), add_assoc (s.results : Multiset ν)]
  rfl

/-- **A step of the loop neither loses a move nor counts one twice.** -/
theorem Steps.accounted (h : s.Steps cfg a timeout t outputs) (hs : s.point.Fits s.pool)
    (hmoves : s.Accounted moves) : t.Accounted moves := by
  cases h with
  | @start id c rest hpoint htodo hid =>
    have hnext : (s.start cfg a id c rest).Balance moves :=
      balance_start (fits_of hs hpoint) (balance_of hmoves (.inl hpoint)) htodo hid
    unfold Accounted
    show match s.point with
      | .assign => _ | .check => _ | .wait => _ | .collected _ _ => _ | .done false => _ | _ => _
    rw [hpoint]
    exact hnext
  | complete hpoint hnone hfree =>
    have hbal : s.Balance moves := balance_of hmoves (.inl hpoint)
    exact perm_complete (s := s) (fits_of hs hpoint) hbal hnone hfree
  | busy hpoint hnone hbusy =>
    have hbal := balance_of hmoves (.inl hpoint)
    exact hbal
  | stop hpoint hstop => trivial
  | goOn hpoint hstop =>
    have hbal := balance_of hmoves (.inr (.inl hpoint))
    exact hbal
  | @collect id queue ret pool hpoint hqueue hjoin =>
    have hbal := balance_of hmoves (.inr (.inr (.inl hpoint)))
    have hload : pool.load = Pool.load { s.pool with readyQueue := queue } :=
      Pool.joinSlave_load hjoin
    show _ + pool.load + _ = _
    rw [hload]
    exact hbal
  | again hpoint hnode hfailed =>
    exact balance_again (fits_of hs hpoint) (balance_of hmoves (.inr (.inr (.inr ⟨_, _, hpoint⟩))))
  | @accept id ret c hpoint hnode hfinal =>
    have hnext : (s.accept a id c ret.negate).Balance moves := balance_accept (fits_of hs hpoint)
      (balance_of hmoves (.inr (.inr (.inr ⟨_, _, hpoint⟩)))) hnode
    unfold Accounted
    show match (if ret.negate.score ≥ a.beta then _ else _ : LoopPoint n) with
      | .assign => _ | .check => _ | .wait => _ | .collected _ _ => _ | .done false => _ | _ => _
    split_ifs
    · trivial
    · exact hnext
  | skip hpoint hi hfree => trivial
  | interrupt hpoint hi hbusy => trivial
  | @clear i cutoff hpoint hi => cases cutoff <;> trivial
  | join hpoint hjoin => trivial

/-- The loop starts with all slaves free. -/
theorem first_fits {pool : Pool n ν} {c : ν} {rest : List ν} (hquiet : pool.Quiet) (score : Ret)
    (hperm : (c :: rest).Perm moves) :
    (first a pool c rest score).point.Fits (first a pool c rest score).pool ∧
      (first a pool c rest score).Accounted moves := by
  have hbal : (first a pool c rest score).Balance moves := by
    show (([c] : List ν) : Multiset ν) + pool.load + (rest : Multiset ν) = moves
    rw [hquiet.load, add_zero, Multiset.coe_add]
    exact Multiset.coe_eq_coe.mpr hperm
  have hpoint : (first a pool c rest score).point = .done true ∨
      (first a pool c rest score).point = .assign := by
    show (if score.score ≥ a.beta then _ else _) = _ ∨ (if score.score ≥ a.beta then _ else _) = _
    split
    · exact .inl rfl
    · exact .inr rfl
  unfold Accounted
  rcases hpoint with hpoint | hpoint <;> rw [hpoint]
  · exact ⟨hquiet, trivial⟩
  · exact ⟨hquiet.ok, hbal⟩

/-- A slave is only started while it is not running. -/
theorem Steps.started (h : s.Steps cfg a timeout t outputs) (hs : s.point.Fits s.pool) {id : Fin n}
    {args : Args ν} (hstarted : .started id args ∈ outputs) : (s.pool.slaves id).thread = .none := by
  cases h with
  | @start i c rest hpoint htodo hid =>
    have hok : s.pool.Ok true 0 none := fits_of hs hpoint
    obtain ⟨rfl, -⟩ := Output.started.inj (List.mem_singleton.mp hstarted)
    exact (hok.idle_of_free (Pool.findFreeSlave_eq_some hid)).2.1
  | @again i ret c hpoint hnode hfailed =>
    have hok : s.pool.Ok true 0 (some i) := fits_of hs hpoint
    obtain ⟨rfl, -⟩ := Output.started.inj (List.mem_singleton.mp hstarted)
    exact hok.taken_of.2
  | accept hpoint hnode hfinal => simp [acceptOutput] at hstarted
  | _ => cases hstarted

/-- The loop itself neither calls nor returns. -/
theorem Steps.quiet_outputs (h : s.Steps cfg a timeout t outputs) {o : Output n ν} (ho : o ∈ outputs) :
    (∀ args, o ≠ .called args) ∧ ∀ serial args exit results ret,
      o ≠ .returned serial args exit results ret := by
  cases h with
  | start hpoint htodo hid =>
    obtain rfl := List.mem_singleton.mp ho
    simp
  | again hpoint hnode hfailed =>
    obtain rfl := List.mem_singleton.mp ho
    simp
  | accept hpoint hnode hfinal =>
    simp only [acceptOutput, List.mem_append, List.mem_ite_nil_right, List.mem_singleton] at ho
    rcases ho with (⟨-, rfl⟩ | rfl) | ⟨-, rfl⟩ <;> simp
  | _ => cases ho

end LoopState

theorem LoopPoint.Fits.env {point : LoopPoint n} {pool pool' : Pool n ν} {e : Env n}
    (h : point.Fits pool) (he : pool.env e = some pool') : point.Fits pool' := by
  cases point with
  | assign => exact Pool.Ok.env h he
  | check => exact Pool.Ok.env h he
  | wait => exact Pool.Ok.env h he
  | collected id ret => exact Pool.Ok.env h he
  | interrupting i cutoff => exact Pool.Ok.env h he
  | joining i cutoff =>
    refine ⟨h.1.env he, ?_⟩
    rw [(Pool.env_slave he i).1]
    exact h.2
  | done cutoff => exact Pool.Quiet.env h he
  | aborted => exact Pool.Quiet.env h he

/-- A search returns. -/
theorem LoopPoint.Fits.slaveReady {point : LoopPoint n} {pool : Pool n ν} {id : Fin n} {args : Args ν}
    {ret : Ret} (h : point.Fits pool) (hrun : (pool.slaves id).thread = .running args) :
    point.Fits (pool.slaveReady id args ret) := by
  have hquiet : ¬ pool.Quiet := fun hq => by cases hrun.symm.trans (hq.1 id).2.1
  cases point with
  | assign => exact Pool.Ok.slaveReady h hrun
  | check => exact Pool.Ok.slaveReady h hrun
  | wait => exact Pool.Ok.slaveReady h hrun
  | collected i ret => exact Pool.Ok.slaveReady h hrun
  | interrupting i cutoff => exact Pool.Ok.slaveReady h hrun
  | joining i cutoff =>
    refine ⟨h.1.slaveReady hrun, ?_⟩
    by_cases hi : i = id
    · subst hi
      rw [Pool.slaveReady_self]
      exact h.2
    · rw [Pool.slaveReady_of_ne _ _ _ hi]
      exact h.2
  | done cutoff => exact (hquiet h).elim
  | aborted => exact (hquiet h).elim

theorem LoopPoint.Fits.busy_of_running {point : LoopPoint n} {pool : Pool n ν} {id : Fin n}
    {args : Args ν} (h : point.Fits pool) (hrun : (pool.slaves id).thread = .running args) :
    (pool.slaves id).free = false := by
  have hquiet : pool.Quiet → (pool.slaves id).free = false := fun hq => by
    cases hrun.symm.trans (hq.1 id).2.1
  cases point with
  | assign => exact Pool.Ok.busy_of_running h hrun
  | check => exact Pool.Ok.busy_of_running h hrun
  | wait => exact Pool.Ok.busy_of_running h hrun
  | collected i ret => exact Pool.Ok.busy_of_running h hrun
  | interrupting i cutoff => exact Pool.Ok.busy_of_running h hrun
  | joining i cutoff => exact h.1.busy_of_running hrun
  | done cutoff => exact hquiet h
  | aborted => exact hquiet h

/-! ## The calls -/

/-- A call that waits for one above it. -/
def Frame.Waits (cfg : Config ν) : Frame n ν → Prop
  | .base _ => True
  | .parallel _ .nullMove => True
  | .parallel _ .deepening => True
  | .parallel a (.first c rest) => (c :: rest).Perm (cfg.legal a.node)
  | _ => False

/-- The slaves while a call is on top. -/
def Frame.Fits (cfg : Config ν) (pool : Pool n ν) : Frame n ν → Prop
  | .serial _ (some id) => pool.Ok false 0 none ∧ ∀ i, (pool.slaves i).free = true ↔ i ≠ id
  | .parallel a (.loop vars) =>
    vars.point.Fits pool ∧ LoopState.Accounted (cfg.legal a.node) ⟨vars, pool⟩
  | .parallel _ .nullMove => False
  | .parallel _ .deepening => False
  | .parallel _ (.first _ _) => False
  | _ => pool.Quiet

namespace System

/-- The call on top has the slaves, and the others wait. -/
structure Inv (cfg : Config ν) (s : System n ν) : Prop where
  top : ∃ f rest, s.stack = f :: rest ∧ f.Fits cfg s.pool ∧ ∀ g ∈ rest, g.Waits cfg

variable {cfg : Config ν} {pool : Pool n ν} {stack : List (Frame n ν)} {f : Frame n ν}

theorem inv_of (hf : f.Fits cfg pool) (hstack : ∀ g ∈ stack, g.Waits cfg) :
    Inv cfg ⟨pool, f :: stack⟩ := ⟨f, stack, rfl, hf, hstack⟩

theorem create_quiet : (Pool.create n : Pool n ν).Quiet :=
  ⟨fun _ => ⟨rfl, rfl, rfl⟩, rfl⟩

theorem create_inv : Inv cfg (create n ν) :=
  ⟨.base false, [], rfl, create_quiet, fun _ hg => (List.not_mem_nil hg).elim⟩

/-- What happens outside the master leaves the call on top its slaves. -/
theorem fits_env {pool' : Pool n ν} {e : Env n} (h : f.Fits cfg pool) (he : pool.env e = some pool') :
    f.Fits cfg pool' := by
  have hload := Pool.env_load he
  cases f with
  | base tainted => exact Pool.Quiet.env h he
  | entered a => exact Pool.Quiet.env h he
  | returned ret => exact Pool.Quiet.env h he
  | serial a slave =>
    cases slave with
    | none => exact Pool.Quiet.env h he
    | some id =>
      refine ⟨h.1.env he, fun i => ?_⟩
      rw [(Pool.env_slave he i).1]
      exact h.2 i
  | parallel a point =>
    cases point with
    | loop vars =>
      refine ⟨h.1.env he, ?_⟩
      have hmoves := h.2
      unfold LoopState.Accounted LoopState.Balance at hmoves ⊢
      rw [hload]
      exact hmoves
    | entered => exact Pool.Quiet.env h he
    | probing => exact Pool.Quiet.env h he
    | prepared => exact Pool.Quiet.env h he
    | ready => exact Pool.Quiet.env h he
    | nullMove => exact h.elim
    | deepening => exact h.elim
    | first c rest => exact h.elim

/-- What is to be seen of a step. -/
structure Shows (cfg : Config ν) (s : System n ν) (outputs : List (Output n ν)) (t : System n ν) :
    Prop where
  started : ∀ id args, .started id args ∈ outputs → (s.pool.slaves id).thread = .none
  called : ∀ args, .called args ∈ outputs → t.pool.Quiet
  returned : ∀ serial a exit results r, .returned serial a exit results r ∈ outputs → t.pool.Quiet
  complete : ∀ a results r, .returned false a .complete results r ∈ outputs →
    0 < n → results.Perm (cfg.legal a.node)

variable {s t : System n ν} {outputs : List (Output n ν)}

theorem shows_nil : Shows cfg s [] t := by
  constructor <;> simp

theorem shows_called (h : t.pool.Quiet) {args : Args ν} : Shows cfg s [.called args] t := by
  constructor <;> simp [h]

theorem shows_returned (h : t.pool.Quiet) {serial : Bool} {a : Args ν} {exit : Exit}
    {results : List ν} {r : Ret}
    (hresults : serial = false → exit = .complete → 0 < n → results.Perm (cfg.legal a.node)) :
    Shows cfg s [.returned serial a exit results r] t := by
  refine ⟨by simp, by simp, fun _ _ _ _ _ _ => h, fun b results' r' hmem hn => ?_⟩
  obtain ⟨rfl, rfl, rfl, rfl, -⟩ := Output.returned.inj (List.mem_singleton.mp hmem)
  exact hresults rfl rfl hn

/-- A call finds the slaves free. -/
theorem call_inv (hquiet : pool.Quiet) (hstack : ∀ g ∈ stack, g.Waits cfg) (args : Args ν) :
    Inv cfg (call pool stack args).1 ∧ Shows cfg s (call pool stack args).2 (call pool stack args).1 :=
  ⟨inv_of hquiet hstack, shows_called hquiet⟩

/-- It leaves them free. -/
theorem ret_inv (hquiet : pool.Quiet) (hstack : ∀ g ∈ stack, g.Waits cfg) {serial : Bool} (a : Args ν)
    {exit : Exit} (results : List ν) (r : Ret) (hexit : exit = .complete → serial = true) :
    Inv cfg (ret pool stack serial a exit results r).1 ∧
      Shows cfg s (ret pool stack serial a exit results r).2 (ret pool stack serial a exit results r).1 := by
  refine ⟨inv_of hquiet hstack, shows_returned hquiet fun hserial he _ => ?_⟩
  cases hserial.symm.trans (hexit he)

theorem Shows.stored (h : Shows cfg s outputs t) (c : ν) (depth alpha beta : Int) (r : Ret) :
    Shows cfg s (.stored c depth alpha beta r :: outputs) t where
  started := fun id args hmem => h.started id args (List.mem_of_ne_of_mem (by simp) hmem)
  called := fun args hmem => h.called args (List.mem_of_ne_of_mem (by simp) hmem)
  returned := fun serial a exit results r hmem =>
    h.returned serial a exit results r (List.mem_of_ne_of_mem (by simp) hmem)
  complete := fun a results r hmem => h.complete a results r (List.mem_of_ne_of_mem (by simp) hmem)

/-- The only slave of `nonparallel_search` is joined and freed. -/
theorem serial_quiet {pool' : Pool n ν} {id : Fin n} {queue : List (Fin n)} {r : Ret}
    (hok : pool.Ok false 0 none) (hfree : ∀ i, (pool.slaves i).free = true ↔ i ≠ id)
    (hqueue : pool.readyQueue = id :: queue)
    (hjoin : Pool.joinSlave { pool with readyQueue := queue } id = some (r, pool')) (timeout : Bool) :
    Pool.Quiet ((pool'.checkTime timeout).setSlave id
      { (pool'.checkTime timeout).slaves id with free := true }) := by
  have htaken := (hok.join hqueue hjoin).checkTime timeout
  have hidle : Slave.Idle { (pool'.checkTime timeout).slaves id with free := true } := by
    obtain ⟨⟨_, -, -, hnode⟩, hthread⟩ := htaken.taken_of
    exact ⟨rfl, hthread, hnode⟩
  refine (htaken.release hidle).quiet (Pool.allSlavesFree_iff.mpr fun i => ?_)
  by_cases hi : i = id
  · subst hi
    rw [Pool.setSlave_self]
  · obtain ⟨-, -, hothers, -⟩ := Pool.joinSlave_slaves hjoin
    rw [Pool.setSlave_of_ne _ _ hi]
    show (pool'.slaves i).free = true
    rw [hothers i hi]
    exact (hfree i).mpr hi

/-- It is given the node. -/
theorem serial_given (hquiet : pool.Quiet) {id : Fin n} (a : Args ν)
    (hid : pool.findFreeSlave = some id) :
    Frame.Fits cfg (pool.setSlave id
      { (pool.slaves id).startThread a with free := false, node := some a.node })
      (.serial a (some id)) := by
  have hidle := hquiet.1 id
  have hstart := LoopState.startThread_eq hidle.2.1 a
  have hrun : ((pool.slaves id).startThread a).thread = .running a := by
    rw [hstart]
  refine ⟨hquiet.ok.give (Pool.findFreeSlave_eq_some hid) ⟨a.node, rfl, rfl, ?_⟩ hrun, fun i => ?_⟩
  · rw [hstart]
    exact hidle.2.2
  · by_cases hi : i = id
    · subst hi
      rw [Pool.setSlave_self]
      simp
    · rw [Pool.setSlave_of_ne _ _ hi]
      exact iff_of_true (hquiet.1 i).1 hi

variable [DecidableEq ν] {choice : Choice ν} {res : System n ν × List (Output n ν)}

omit [DecidableEq ν] in
theorem enter_step_inv {a stack} (hs : Inv cfg ⟨pool, .entered a :: stack⟩) :
    Inv cfg ⟨pool, enteredStep cfg a :: stack⟩ ∧
      Shows cfg ⟨pool, .entered a :: stack⟩ [] ⟨pool, enteredStep cfg a :: stack⟩ := by
  obtain ⟨f, rest, hstack, hf, hrest⟩ := hs.top
  cases hstack
  refine ⟨inv_of ?_ hrest, shows_nil⟩
  unfold enteredStep
  split
  · exact hf
  · split
    · exact hf
    · exact hf

omit [DecidableEq ν] in
theorem answer_step_inv {a point stack score} (hs : Inv cfg ⟨pool, .parallel a point :: stack⟩)
    (hpoint : point = .entered ∨ point = .probing) :
    Inv cfg (answer cfg pool stack false a score).1 ∧
      Shows cfg ⟨pool, .parallel a point :: stack⟩ (answer cfg pool stack false a score).2
        (answer cfg pool stack false a score).1 := by
  obtain ⟨f, rest, hstack, hf, hrest⟩ := hs.top
  cases hstack
  have hquiet : pool.Quiet := by
    rcases hpoint with rfl | rfl
    · exact hf
    · exact hf
  exact ret_inv hquiet hrest _ _ _ Exit.noConfusion

omit [DecidableEq ν] in
theorem done_step_inv {a vars stack} {cutoff : Bool} (hs : Inv cfg ⟨pool, .parallel a (.loop vars) :: stack⟩)
    (hpoint : vars.point = .done cutoff) :
    Inv cfg ⟨pool, .returned (if cfg.failsoft then vars.bestscore else vars.alpha) :: stack⟩ ∧
      Shows cfg ⟨pool, .parallel a (.loop vars) :: stack⟩
        [.stored a.node a.depth a.alpha a.beta
            (if cfg.failsoft then vars.bestscore else vars.alpha),
          .returned false a (if cutoff then .cutoff else .complete) vars.results
            (if cfg.failsoft then vars.bestscore else vars.alpha)]
        ⟨pool, .returned (if cfg.failsoft then vars.bestscore else vars.alpha) :: stack⟩ := by
  obtain ⟨f, rest, hstack, hf, hrest⟩ := hs.top
  cases hstack
  have hquiet : pool.Quiet := by
    have hfits := hf.1
    rw [hpoint] at hfits
    exact hfits
  refine ⟨inv_of hquiet hrest, (shows_returned hquiet fun _ hexit => ?_).stored _ _ _ _ _⟩
  cases cutoff with
  | true => cases hexit
  | false =>
    have hmoves := hf.2
    unfold LoopState.Accounted at hmoves
    rw [hpoint] at hmoves
    exact hmoves

omit [DecidableEq ν] in
theorem aborted_step_inv {a vars stack} (hs : Inv cfg ⟨pool, .parallel a (.loop vars) :: stack⟩)
    (hpoint : vars.point = .aborted) :
    Inv cfg (ret pool stack false a .stopped vars.results .abort).1 ∧
      Shows cfg ⟨pool, .parallel a (.loop vars) :: stack⟩
        (ret pool stack false a .stopped vars.results .abort).2
        (ret pool stack false a .stopped vars.results .abort).1 := by
  obtain ⟨f, rest, hstack, hf, hrest⟩ := hs.top
  cases hstack
  have hquiet : pool.Quiet := by
    have hfits := hf.1
    rw [hpoint] at hfits
    exact hfits
  exact ret_inv hquiet hrest _ _ _ Exit.noConfusion

omit [DecidableEq ν] in
theorem loop_step_inv {a vars stack t outputs} (hs : Inv cfg ⟨pool, .parallel a (.loop vars) :: stack⟩)
    (hstep : LoopState.Steps cfg a timeout ⟨vars, pool⟩ t outputs) :
    Inv cfg ⟨t.pool, .parallel a (.loop t.toLoopVars) :: stack⟩ ∧
      Shows cfg ⟨pool, .parallel a (.loop vars) :: stack⟩ outputs
        ⟨t.pool, .parallel a (.loop t.toLoopVars) :: stack⟩ := by
  obtain ⟨f, rest, hstack, hf, hrest⟩ := hs.top
  cases hstack
  refine ⟨inv_of ⟨hstep.fits hf.1, hstep.accounted hf.1 hf.2⟩ hrest,
    ⟨fun i args hmem => hstep.started hf.1 hmem, fun args hmem => ?_, fun _ _ _ _ _ hmem => ?_,
      fun _ _ _ hmem => ?_⟩⟩
  · exact ((hstep.quiet_outputs hmem).1 _ rfl).elim
  · exact ((hstep.quiet_outputs hmem).2 _ _ _ _ _ rfl).elim
  · exact ((hstep.quiet_outputs hmem).2 _ _ _ _ _ rfl).elim

omit [DecidableEq ν] in
theorem first_step_inv {r a c todo stack}
    (hs : Inv cfg ⟨pool, .returned r :: .parallel a (.first c todo) :: stack⟩) (timeout : Bool) :
    Inv cfg ⟨pool.checkTime timeout, .parallel a (.loop
        (LoopState.first a (pool.checkTime timeout) c todo r.negate).toLoopVars) :: stack⟩ ∧
      Shows cfg ⟨pool, .returned r :: .parallel a (.first c todo) :: stack⟩
        (LoopState.firstOutput a r.negate)
        ⟨pool.checkTime timeout, .parallel a (.loop
          (LoopState.first a (pool.checkTime timeout) c todo r.negate).toLoopVars) :: stack⟩ := by
  obtain ⟨f, rest, hstack, hf, hrest⟩ := hs.top
  cases hstack
  obtain ⟨hperm, hwaits⟩ := List.forall_mem_cons.mp hrest
  have hquiet : (pool.checkTime timeout).Quiet := hf
  obtain ⟨hfits, hmoves⟩ := LoopState.first_fits hquiet r.negate hperm
  refine ⟨inv_of ⟨hfits, hmoves⟩ hwaits, ⟨?_, ?_, ?_, ?_⟩⟩
  all_goals simp [LoopState.firstOutput]

omit [DecidableEq ν] in
/-- **A step of the master keeps order**, and shows it. -/
theorem MasterSteps.inv (h : MasterSteps cfg pool stack choice res) (hs : Inv cfg ⟨pool, stack⟩) :
    Inv cfg res.1 ∧ Shows cfg ⟨pool, stack⟩ res.2 res.1 := by
  obtain ⟨f, rest, hstack, hf, hrest⟩ := hs.top
  cases h with
  | call | nullMove | deepen =>
    cases hstack
    refine call_inv hf (List.forall_mem_cons.mpr ⟨?_, hrest⟩) _
    trivial
  | back | count | probe | noNullMove | noDeepening =>
    cases hstack
    exact ⟨inv_of hf hrest, shows_nil⟩
  | enter => exact enter_step_inv hs
  | serialAnswer hdepth =>
    cases hstack
    exact ret_inv hf hrest _ _ _ Exit.noConfusion
  | @serialStart a _ _ id hid =>
    cases hstack
    refine ⟨inv_of (serial_given hf a hid) hrest, ⟨fun i args hmem => ?_, by simp, by simp, by simp⟩⟩
    obtain ⟨rfl, -⟩ := Output.started.inj (List.mem_singleton.mp hmem)
    exact (hf.1 i).2.1
  | serialJoin timeout hqueue hjoin =>
    cases hstack
    have hquiet := serial_quiet hf.1 hf.2 hqueue hjoin timeout
    obtain ⟨hinv, hshows⟩ := ret_inv hquiet hrest _ [] _ fun _ => rfl
    exact ⟨hinv, hshows.stored _ _ _ _ _⟩
  | answer _ hpoint => exact answer_step_inv hs hpoint
  | order hperm =>
    cases hstack
    refine call_inv hf (List.forall_mem_cons.mpr ⟨?_, hrest⟩) _
    exact hperm
  | done hpoint => exact done_step_inv hs hpoint
  | aborted hpoint => exact aborted_step_inv hs hpoint
  | loop _ hstep => exact loop_step_inv hs hstep
  | toBase | nullFailed | deepened =>
    cases hstack
    exact ⟨inv_of hf (List.forall_mem_cons.mp hrest).2, shows_nil⟩
  | nullCut hcut =>
    cases hstack
    refine ret_inv hf (List.forall_mem_cons.mp hrest).2 _ _ _ ?_
    exact Exit.noConfusion
  | firstStopped timeout hstop =>
    cases hstack
    have hquiet : (pool.checkTime timeout).Quiet := hf
    refine ret_inv hquiet (List.forall_mem_cons.mp hrest).2 _ _ _ ?_
    exact Exit.noConfusion
  | first timeout _ => exact first_step_inv hs timeout

/-! ## All runs -/

/-- In `abort_all_slaves`. -/
def Aborting (s : System n ν) : Prop :=
  ∃ a vars rest, s.stack = .parallel a (.loop vars) :: rest ∧
    ((∃ i cutoff, vars.point = .interrupting i cutoff) ∨ ∃ i cutoff, vars.point = .joining i cutoff)

/-- The order of the slaves in a state and in the steps from there.  `asserted` is the assertion
in `nonparallel_search`. -/
structure Kept (cfg : Config ν) (s : System n ν) : Prop where
  nodup : s.pool.readyQueue.Nodup
  queued : ∀ id ∈ s.pool.readyQueue, (s.pool.slaves id).free = true → s.Aborting
  serial : ∀ a rest, s.stack = .serial a none :: rest → s.pool.allSlavesFree = true
  asserted : ∀ a id rest, s.stack = .serial a (some id) :: rest → ∀ id1 ∈ s.pool.readyQueue, id1 = id
  step : ∀ action outputs t, s.Step cfg (action, outputs) t → Shows cfg s outputs t

theorem Step.inv {l : Action n ν × List (Output n ν)} (h : s.Step cfg l t) (hs : Inv cfg s) :
    Inv cfg t ∧ Shows cfg s l.2 t := by
  obtain ⟨action, outputs⟩ := l
  cases action with
  | env e =>
    obtain ⟨pool, he, hres⟩ := Option.map_eq_some_iff.mp h
    obtain ⟨rfl, rfl⟩ := Prod.mk.inj hres
    obtain ⟨f, rest, hstack, hf, hrest⟩ := hs.top
    exact ⟨⟨f, rest, hstack, fits_env hf he, hrest⟩, shows_nil⟩
  | master choice => exact (masterStep_cases h).inv hs

omit [DecidableEq ν] in
/-- The slaves in any state: only `abort_all_slaves` has freed some of them ahead of the queue. -/
theorem Inv.ok (hs : Inv cfg s) :
    ∃ own k taken, s.pool.Ok own k taken ∧ (k = 0 ∨ s.Aborting) := by
  obtain ⟨f, rest, hstack, hf, -⟩ := hs.top
  have hquiet : s.pool.Quiet → ∃ own k taken, s.pool.Ok own k taken ∧ (k = 0 ∨ s.Aborting) :=
    fun h => ⟨true, 0, none, h.ok, .inl rfl⟩
  cases f with
  | base tainted => exact hquiet hf
  | entered a => exact hquiet hf
  | returned ret => exact hquiet hf
  | serial a slave =>
    cases slave with
    | none => exact hquiet hf
    | some id => exact ⟨_, _, _, hf.1, .inl rfl⟩
  | parallel a point =>
    cases point with
    | loop vars =>
      have hfits := hf.1
      cases hpoint : vars.point <;> rw [hpoint] at hfits
      case interrupting i cutoff =>
        exact ⟨_, _, _, hfits, .inr ⟨a, vars, rest, hstack, .inl ⟨i, cutoff, hpoint⟩⟩⟩
      case joining i cutoff =>
        exact ⟨_, _, _, hfits.1, .inr ⟨a, vars, rest, hstack, .inr ⟨i, cutoff, hpoint⟩⟩⟩
      case done cutoff => exact hquiet hfits
      case aborted => exact hquiet hfits
      all_goals exact ⟨_, _, _, hfits, .inl rfl⟩
    | entered => exact hquiet hf
    | probing => exact hquiet hf
    | prepared => exact hquiet hf
    | ready => exact hquiet hf
    | nullMove => exact hf.elim
    | deepening => exact hf.elim
    | first c rest => exact hf.elim

theorem Inv.kept (hs : Inv cfg s) : s.Kept cfg where
  nodup := by
    obtain ⟨_, _, _, hok, -⟩ := hs.ok
    exact hok.nodup
  queued := fun id hid hfree => by
    obtain ⟨_, k, _, hok, hk⟩ := hs.ok
    refine hk.resolve_left fun hk => ?_
    subst hk
    cases hfree.symm.trans (hok.busy hid)
  serial := fun a rest hstack => by
    obtain ⟨f, rest', hstack', hf, -⟩ := hs.top
    rw [hstack] at hstack'
    cases hstack'
    exact Pool.allSlavesFree_iff.mpr fun i => (hf.1 i).1
  asserted := fun a id rest hstack id1 hid => by
    obtain ⟨f, rest', hstack', hf, -⟩ := hs.top
    rw [hstack] at hstack'
    cases hstack'
    by_contra hne
    cases ((hf.2 id1).mpr hne).symm.trans (hf.1.busy hid)
  step := fun action outputs t hstep => (Step.inv hstep hs).2

/-- **Slaves are given out and taken back in order**, in whatever order they finish. -/
theorem schedule {ls : List (Action n ν × List (Output n ν))}
    (hrun : Runs (Step cfg) (create n ν) ls s) : s.Kept cfg :=
  (hrun.invariant create_inv fun _ _ _ hs hstep => (Step.inv hstep hs).1).kept

/-! ## One slave and two moves -/

/-- A node with two moves, the second of which a slave has finished when the time is over. -/
def overtime : List (Action 1 Nat) :=
  [.master (.call ⟨0, 0, 2, -10, 10⟩), .master .go, .master .go, .master .go, .master .go,
    .master (.order [1, 2]), .master .go, .master (.answer 0), .master .go, .master .go, .master .go,
    .env (.finish 0 3), .master .timeout, .master .go, .master .go]

/-- Nodes with the moves to 1 and 2, searched in parallel from depth 2 on. -/
def twoMoves : Config Nat := ⟨false, 1, 2, 1, fun _ => [1, 2]⟩

/-- **The number of a free slave is still in the queue**, before `ready_queue.clear()`. -/
theorem queue_has_free : ∃ ls s, Runs (Step twoMoves) (create 1 Nat) ls s ∧
    ∃ id ∈ s.pool.readyQueue, (s.pool.slaves id).free = true := by
  have htrace : (trace (step twoMoves) (create 1 Nat) overtime).any (fun r =>
      decide (0 ∈ r.2.pool.readyQueue) && (r.2.pool.slaves 0).free) = true := by decide +kernel
  obtain ⟨⟨ls, s⟩, hs, h⟩ := (Option.any_eq_true _ _).mp htrace
  rw [Bool.and_eq_true, decide_eq_true_eq] at h
  exact ⟨ls, s, runs_of_trace hs, 0, h⟩

/-- The slaves are in order on the way there. -/
theorem schedule_overtime : ∃ ls s, Runs (Step twoMoves) (create 1 Nat) ls s ∧ ls ≠ [] ∧
    s.Kept twoMoves := by
  have htrace : (trace (step twoMoves) (create 1 Nat) overtime).any (fun r => !r.1.isEmpty) = true := by
    decide +kernel
  obtain ⟨⟨ls, s⟩, hs, h⟩ := (Option.any_eq_true _ _).mp htrace
  exact ⟨ls, s, runs_of_trace hs, by simpa using h, schedule (runs_of_trace hs)⟩

end System

end HoiChess.ParallelSearch
