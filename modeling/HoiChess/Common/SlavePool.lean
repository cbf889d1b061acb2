import HoiChess.Common.Slaves
import Mathlib.Algebra.BigOperators.Fin
import Mathlib.Algebra.Order.Group.Multiset

/-!
# The slaves keep order

`Pool.Ok` says how queue, threads and the fields of `struct slave` fit together: the queue has the
slaves whose search has ended, each once, and a slave is free exactly if it has neither thread
nor node.  Two moments are let in: the master has just joined the thread of one slave (`taken`),
and in `abort_all_slaves` it has freed the first slaves, whose numbers may still be in the queue
(`swept`).  Each operation on the slaves keeps it.
-/

namespace HoiChess.ParallelSearch

variable {n : Nat} {ν : Type}

namespace Slave

/-- Free, without thread and node. -/
def Idle (s : Slave ν) : Prop := s.free = true ∧ s.thread = .none ∧ s.nodealloc = none

/-- Not free, with a node, which comes from the allocator of the slave if it is its `own`. -/
def Holds (own : Bool) (s : Slave ν) (c : ν) : Prop :=
  s.free = false ∧ s.node = some c ∧ s.nodealloc = if own then some c else none

def Working (own : Bool) (s : Slave ν) : Prop := (∃ c, s.Holds own c) ∧ s.thread ≠ .none

def Taken (own : Bool) (s : Slave ν) : Prop := (∃ c, s.Holds own c) ∧ s.thread = .none

def Finished (s : Slave ν) : Prop := ∃ args ret, s.thread = .finished args ret

/-- The move that the slave has. -/
def load (s : Slave ν) : Multiset ν := if s.free then 0 else s.node.elim 0 singleton

variable {own : Bool} {s : Slave ν} {c : ν}

theorem Idle.load (h : s.Idle) : s.load = 0 := if_pos h.1

theorem Holds.load (h : s.Holds own c) : s.load = {c} := by
  unfold Slave.load
  rw [h.1, h.2.1]
  rfl

theorem Idle.not_finished (h : s.Idle) : ¬ s.Finished := by
  rintro ⟨args, ret, hf⟩
  cases h.2.1.symm.trans hf

theorem Working.not_free (h : s.Working own) : s.free = false := by
  obtain ⟨⟨c, hc⟩, _⟩ := h
  exact hc.1

end Slave

namespace Pool

/-- All slaves are free, their allocators are empty, and so is the queue. -/
def Quiet (p : Pool n ν) : Prop := (∀ i, (p.slaves i).Idle) ∧ p.readyQueue = []

/-- Each slave is idle or working, except for the one that has been `taken`. -/
def Has (own : Bool) (taken : Option (Fin n)) (p : Pool n ν) (i : Fin n) : Prop :=
  if taken = some i then (p.slaves i).Taken own else (p.slaves i).Idle ∨ (p.slaves i).Working own

structure Ok (own : Bool) (swept : Nat) (taken : Option (Fin n)) (p : Pool n ν) : Prop where
  nodup : p.readyQueue.Nodup
  queued : ∀ i, (p.slaves i).Finished → i ∈ p.readyQueue
  mem : ∀ i ∈ p.readyQueue, (p.slaves i).Finished ∨ i.val < swept
  swept : ∀ i, i.val < swept → (p.slaves i).Idle
  has : ∀ i, p.Has own taken i

/-- The moves that the slaves have. -/
def load (p : Pool n ν) : Multiset ν := ∑ i, (p.slaves i).load

variable {own : Bool} {k k' : Nat} {taken taken' : Option (Fin n)} {p p' : Pool n ν} {id : Fin n}
  {s : Slave ν}

/-! ## One slave changes -/

/-- The queue and the other slaves fit together as before. -/
structure Aside (k k' : Nat) (taken taken' : Option (Fin n)) (p p' : Pool n ν) (id : Fin n) : Prop where
  slaves : ∀ i, i ≠ id → p'.slaves i = p.slaves i
  queue : ∀ i, i ≠ id → (i ∈ p'.readyQueue ↔ i ∈ p.readyQueue)
  swept : ∀ i : Fin n, i ≠ id → (i.val < k' ↔ i.val < k)
  taken : ∀ i, i ≠ id → (taken' = some i ↔ taken = some i)

/-- **One slave changes**, and the rest is as before. -/
theorem Ok.change (id : Fin n) (h : p.Ok own k taken) (ha : Aside k k' taken taken' p p' id)
    (hnodup : p'.readyQueue.Nodup) (hqueued : (p'.slaves id).Finished → id ∈ p'.readyQueue)
    (hmem : id ∈ p'.readyQueue → (p'.slaves id).Finished ∨ id.val < k')
    (hswept : id.val < k' → (p'.slaves id).Idle) (hhas : p'.Has own taken' id) :
    p'.Ok own k' taken' := by
  refine ⟨hnodup, fun i hi => ?_, fun i hi => ?_, fun i hi => ?_, fun i => ?_⟩ <;>
    by_cases he : i = id
  · subst he
    exact hqueued hi
  · rw [ha.slaves i he] at hi
    exact (ha.queue i he).mpr (h.queued i hi)
  · subst he
    exact hmem hi
  · rw [ha.slaves i he, ha.swept i he]
    exact h.mem i ((ha.queue i he).mp hi)
  · subst he
    exact hswept hi
  · rw [ha.slaves i he]
    exact h.swept i ((ha.swept i he).mp hi)
  · subst he
    exact hhas
  · have hi := h.has i
    unfold Has at hi ⊢
    rw [ha.slaves i he]
    simp only [ha.taken i he]
    exact hi

/-- A total over the slaves, when one changes. -/
theorem sum_change {M : Type} [AddCommMonoid M] (f : Slave ν → M)
    (h : ∀ i, i ≠ id → p'.slaves i = p.slaves i) :
    ∑ i, f (p'.slaves i) + f (p.slaves id) = ∑ i, f (p.slaves i) + f (p'.slaves id) := by
  have hrest : ∑ i ∈ Finset.univ.erase id, f (p'.slaves i) =
      ∑ i ∈ Finset.univ.erase id, f (p.slaves i) :=
    Finset.sum_congr rfl fun i hi => by rw [h i (Finset.ne_of_mem_erase hi)]
  have h1 := Finset.add_sum_erase Finset.univ (fun i => f (p'.slaves i)) (Finset.mem_univ id)
  have h2 := Finset.add_sum_erase Finset.univ (fun i => f (p.slaves i)) (Finset.mem_univ id)
  rw [← h1, ← h2, hrest]
  simp only [add_comm, add_left_comm]

/-- What the slaves have, when one changes. -/
theorem load_change (h : ∀ i, i ≠ id → p'.slaves i = p.slaves i) :
    p'.load + (p.slaves id).load = p.load + (p'.slaves id).load := sum_change Slave.load h

/-! ## What the operations keep -/

theorem Ok.idle_of_free (h : p.Ok own k none) (hfree : (p.slaves id).free = true) :
    (p.slaves id).Idle := by
  rcases h.has id with hi | hw
  · exact hi
  · cases hfree.symm.trans hw.not_free

theorem Ok.working_of_busy (h : p.Ok own k none) (hbusy : (p.slaves id).free = false) :
    (p.slaves id).Working own := by
  rcases h.has id with hi | hw
  · cases hbusy.symm.trans hi.1
  · exact hw

theorem Ok.taken_of (h : p.Ok own k (some id)) : (p.slaves id).Taken own := by
  have hid := h.has id
  rwa [Has, if_pos rfl] at hid

/-- Whose search runs, is busy. -/
theorem Ok.busy_of_running {args : Args ν} (h : p.Ok own k taken)
    (hrun : (p.slaves id).thread = .running args) : (p.slaves id).free = false := by
  have hid := h.has id
  unfold Has at hid
  split at hid
  · cases hrun.symm.trans hid.2
  · rcases hid with hidle | hwork
    · cases hrun.symm.trans hidle.2.1
    · exact hwork.not_free

/-- Whoever is in the queue has ended, outside `abort_all_slaves`. -/
theorem Ok.finished (h : p.Ok own 0 taken) (hid : id ∈ p.readyQueue) : (p.slaves id).Finished :=
  (h.mem id hid).resolve_right (Nat.not_lt_zero _)

/-- Nobody in the queue is free then. -/
theorem Ok.busy (h : p.Ok own 0 taken) (hid : id ∈ p.readyQueue) : (p.slaves id).free = false := by
  have hhas := h.has id
  unfold Has at hhas
  split at hhas
  · obtain ⟨⟨c, hc⟩, _⟩ := hhas
    exact hc.1
  · rcases hhas with hidle | hwork
    · exact (hidle.not_finished (h.finished hid)).elim
    · exact hwork.not_free

theorem Quiet.ok (h : p.Quiet) : p.Ok own 0 none where
  nodup := h.2 ▸ List.nodup_nil
  queued := fun i hi => ((h.1 i).not_finished hi).elim
  mem := fun i hi => by
    rw [h.2] at hi
    cases hi
  swept := fun i _ => h.1 i
  has := fun i => .inl (h.1 i)

theorem Ok.quiet (h : p.Ok own 0 none) (hfree : p.allSlavesFree = true) : p.Quiet := by
  have hidle : ∀ i, (p.slaves i).Idle := fun i => h.idle_of_free (allSlavesFree_iff.mp hfree i)
  refine ⟨hidle, List.eq_nil_iff_forall_not_mem.mpr fun i hi => ?_⟩
  exact (hidle i).not_finished (h.finished hi)

theorem Quiet.load (h : p.Quiet) : p.load = 0 :=
  Finset.sum_eq_zero fun i _ => (h.1 i).load

/-- Flags and counters say nothing about the order. -/
theorem Ok.congr (h : p.Ok own k taken) (hqueue : p'.readyQueue = p.readyQueue)
    (hslaves : ∀ i, ∃ stop nodes, p'.slaves i = { p.slaves i with stop := stop, nodes := nodes }) :
    p'.Ok own k taken := by
  refine ⟨hqueue ▸ h.nodup, fun i hi => ?_, fun i hi => ?_, fun i hi => ?_, fun i => ?_⟩ <;>
    obtain ⟨stop, nodes, hs⟩ := hslaves i
  · rw [hs] at hi
    rw [hqueue]
    exact h.queued i hi
  · rw [hqueue] at hi
    rw [hs]
    exact h.mem i hi
  · rw [hs]
    exact h.swept i hi
  · have hi := h.has i
    unfold Has at hi ⊢
    rw [hs]
    exact hi

theorem Ok.checkTime (h : p.Ok own k taken) (timeout : Bool) : (p.checkTime timeout).Ok own k taken :=
  h.congr rfl fun _ => ⟨_, _, rfl⟩

/-- The search of a slave ends. -/
theorem Ok.slaveReady {args : Args ν} {ret : Ret} (h : p.Ok own k taken)
    (hrun : (p.slaves id).thread = .running args) : (p.slaveReady id args ret).Ok own k taken := by
  have hnot : ¬ (p.slaves id).Finished := by
    rintro ⟨_, _, hf⟩
    cases hrun.symm.trans hf
  have hlate : ¬ id.val < k := fun hk => by cases hrun.symm.trans (h.swept id hk).2.1
  have hnew : id ∉ p.readyQueue := fun hid => (h.mem id hid).elim hnot hlate
  have hself : (p.slaveReady id args ret).slaves id =
      { p.slaves id with thread := .finished args ret } := setSlave_self _ _ _
  refine h.change id ⟨fun i hi => setSlave_of_ne p _ hi, fun i hi => ?_, fun _ _ => Iff.rfl,
    fun _ _ => Iff.rfl⟩ ?_ (fun _ => ?_) (fun _ => ?_) (fun hk => (hlate hk).elim) ?_
  · show i ∈ p.readyQueue ++ [id] ↔ _
    simp [hi]
  · show (p.readyQueue ++ [id]).Nodup
    exact List.nodup_append.mpr ⟨h.nodup, List.nodup_singleton _, fun i hi j hj => by
      obtain rfl := List.mem_singleton.mp hj
      exact fun he => hnew (he ▸ hi)⟩
  · show id ∈ p.readyQueue ++ [id]
    simp
  · rw [hself]
    exact .inl ⟨_, _, rfl⟩
  · have hid := h.has id
    unfold Has at hid ⊢
    rw [hself]
    split
    · rename_i ht
      rw [if_pos ht] at hid
      cases hrun.symm.trans hid.2
    · rename_i ht
      rw [if_neg ht] at hid
      rcases hid with hid | hid
      · cases hrun.symm.trans hid.2.1
      · exact .inr ⟨hid.1, by simp⟩

/-- **What happens outside the master keeps order.** -/
theorem Ok.env {e : Env n} (h : p.Ok own k taken) (he : p.env e = some p') : p'.Ok own k taken := by
  obtain ⟨hqueue, hslaves⟩ | ⟨id, args, ret, hrun, -, rfl⟩ := env_cases he
  · exact h.congr hqueue hslaves
  · exact h.slaveReady hrun

/-- What a step outside the master does to one slave: its thread may come to its end, and the rest
stays, flags and counters apart. -/
theorem env_slave {e : Env n} (he : p.env e = some p') (i : Fin n) :
    (p'.slaves i).free = (p.slaves i).free ∧ (p'.slaves i).node = (p.slaves i).node ∧
      (p'.slaves i).pvsNullwin = (p.slaves i).pvsNullwin ∧
      ((p'.slaves i).thread = (p.slaves i).thread ∨ ∃ args ret,
        (p.slaves i).thread = .running args ∧ (p'.slaves i).thread = .finished args ret ∧
          (e = .finish i ret.score ∧ ret.aborted = false ∨ e = .abort i ∧ ret = .abort)) := by
  obtain ⟨-, hslaves⟩ | ⟨id, args, ret, hrun, hend, rfl⟩ := env_cases he
  · obtain ⟨stop, nodes, hi⟩ := hslaves i
    rw [hi]
    exact ⟨rfl, rfl, rfl, .inl rfl⟩
  · by_cases hi : i = id
    · subst hi
      have hself : (p.slaveReady i args ret).slaves i =
          { p.slaves i with thread := .finished args ret } := setSlave_self _ _ _
      rw [hself]
      exact ⟨rfl, rfl, rfl, .inr ⟨args, ret, hrun, rfl, hend⟩⟩
    · have hother : (p.slaveReady id args ret).slaves i = p.slaves i := setSlave_of_ne p _ hi
      rw [hother]
      exact ⟨rfl, rfl, rfl, .inl rfl⟩

theorem env_load {e : Env n} (he : p.env e = some p') : p'.load = p.load := by
  refine Finset.sum_congr rfl fun i _ => ?_
  obtain ⟨hfree, hnode, -, -⟩ := env_slave he i
  unfold Slave.load
  rw [hfree, hnode]

theorem slaveReady_load (p : Pool n ν) (id : Fin n) (args : Args ν) (ret : Ret) :
    (p.slaveReady id args ret).load = p.load := by
  refine Finset.sum_congr rfl fun i _ => ?_
  by_cases hi : i = id
  · subst hi
    rw [slaveReady_self]
    rfl
  · rw [slaveReady_of_ne _ _ _ hi]

/-- Free and idle slaves stay so. -/
theorem Quiet.env {e : Env n} (h : p.Quiet) (he : p.env e = some p') : p'.Quiet := by
  have hfree : p'.allSlavesFree = true := allSlavesFree_iff.mpr fun i => by
    rw [(env_slave he i).1]
    exact (h.1 i).1
  have hok : p.Ok true 0 none := h.ok
  exact (hok.env he).quiet hfree

/-! ## What the master does with one slave -/

/-- A slave is changed without a look at the queue. -/
theorem Aside.set (h : ∀ i, i ≠ id → (taken' = some i ↔ taken = some i)) :
    Aside k k taken taken' p (p.setSlave id s) id :=
  ⟨fun _ hi => setSlave_of_ne p _ hi, fun _ _ => Iff.rfl, fun _ _ => Iff.rfl, h⟩

/-- A free slave is given a node. -/
theorem Ok.give (h : p.Ok own 0 none) (hfree : (p.slaves id).free = true)
    (hs : ∃ c, s.Holds own c) {args : Args ν} (hrun : s.thread = .running args) :
    (p.setSlave id s).Ok own 0 none := by
  have hidle := h.idle_of_free hfree
  have hnot : ¬ s.Finished := by
    rintro ⟨_, _, hf⟩
    cases hrun.symm.trans hf
  refine h.change id (.set fun _ _ => Iff.rfl) h.nodup (fun hf => ?_) (fun hid => ?_)
    (fun hk => (Nat.not_lt_zero _ hk).elim) ?_
  · rw [setSlave_self] at hf
    exact (hnot hf).elim
  · exact (hidle.not_finished (h.finished hid)).elim
  · rw [Has, if_neg (by simp), setSlave_self]
    exact .inr ⟨hs, by simp [hrun]⟩

/-- The slave that has been joined is given its node again. -/
theorem Ok.giveAgain (h : p.Ok own 0 (some id)) (hs : ∃ c, s.Holds own c) {args : Args ν}
    (hrun : s.thread = .running args) : (p.setSlave id s).Ok own 0 none := by
  have hnot : ¬ s.Finished := by
    rintro ⟨_, _, hf⟩
    cases hrun.symm.trans hf
  refine h.change id (.set fun i hi => by simp [hi.symm]) h.nodup (fun hf => ?_) (fun hid => ?_)
    (fun hk => (Nat.not_lt_zero _ hk).elim) ?_
  · rw [setSlave_self] at hf
    exact (hnot hf).elim
  · obtain ⟨_, _, hf⟩ := h.finished hid
    cases h.taken_of.2.symm.trans hf
  · rw [Has, if_neg (by simp), setSlave_self]
    exact .inr ⟨hs, by simp [hrun]⟩

/-- The slave that has been joined is freed. -/
theorem Ok.release (h : p.Ok own 0 (some id)) (hs : s.Idle) : (p.setSlave id s).Ok own 0 none := by
  refine h.change id (.set fun i hi => by simp [hi.symm]) h.nodup (fun hf => ?_) (fun hid => ?_)
    (fun hk => (Nat.not_lt_zero _ hk).elim) ?_
  · rw [setSlave_self] at hf
    exact (hs.not_finished hf).elim
  · obtain ⟨_, _, hf⟩ := h.finished hid
    cases h.taken_of.2.symm.trans hf
  · rw [Has, if_neg (by simp), setSlave_self]
    exact .inl hs

/-- What is left of a slave whose thread has been joined. -/
theorem joinSlave_slaves {ret : Ret} (h : p.joinSlave id = some (ret, p')) :
    p'.readyQueue = p.readyQueue ∧ p'.stop = p.stop ∧ (∀ i, i ≠ id → p'.slaves i = p.slaves i) ∧
      ∃ lastNodes, p'.slaves id =
        { p.slaves id with thread := .none, stop := true, lastNodes := lastNodes } := by
  obtain ⟨_, _, rfl⟩ := joinSlave_eq_some.mp h
  refine ⟨rfl, rfl, fun i hi => ?_, (p.slaves id).nodes, ?_⟩
  · show ((p.setSlave id _).setSlave id _).slaves i = _
    rw [setSlave_of_ne _ _ hi, setSlave_of_ne _ _ hi]
  · show ((p.setSlave id _).setSlave id _).slaves id = _
    rw [setSlave_self, setSlave_self]

theorem joinSlave_load {ret : Ret} (h : p.joinSlave id = some (ret, p')) : p'.load = p.load := by
  obtain ⟨-, -, hothers, _, hself⟩ := joinSlave_slaves h
  refine Finset.sum_congr rfl fun i _ => ?_
  by_cases hi : i = id
  · subst hi
    rw [hself]
    rfl
  · rw [hothers i hi]

/-- The first one in the queue is joined. -/
theorem Ok.join {queue : List (Fin n)} {ret : Ret} (h : p.Ok own 0 none)
    (hqueue : p.readyQueue = id :: queue)
    (hjoin : Pool.joinSlave { p with readyQueue := queue } id = some (ret, p')) :
    p'.Ok own 0 (some id) := by
  obtain ⟨hq, -, hothers, _, hself⟩ := joinSlave_slaves hjoin
  have hnodup := h.nodup
  rw [hqueue, List.nodup_cons] at hnodup
  have hfin : (p.slaves id).Finished := h.finished (hqueue ▸ List.mem_cons_self)
  have hwork : (p.slaves id).Working own := by
    rcases h.has id with hi | hw
    · exact (hi.not_finished hfin).elim
    · exact hw
  have hnone : (p'.slaves id).thread = .none := by rw [hself]
  refine h.change id ⟨hothers, fun i hi => ?_, fun _ _ => Iff.rfl,
    fun i hi => by simp [hi.symm]⟩ ?_ (fun hf => ?_) (fun hid => ?_)
    (fun hk => (Nat.not_lt_zero _ hk).elim) ?_
  · rw [hq, hqueue, List.mem_cons]
    exact (or_iff_right hi).symm
  · rw [hq]
    exact hnodup.2
  · obtain ⟨_, _, hf⟩ := hf
    cases hnone.symm.trans hf
  · rw [hq] at hid
    exact (hnodup.1 hid).elim
  · rw [Has, if_pos rfl]
    refine ⟨?_, hnone⟩
    rw [hself]
    exact hwork.1

/-- It can be. -/
theorem Ok.exists_join {queue : List (Fin n)} (h : p.Ok own 0 none)
    (hqueue : p.readyQueue = id :: queue) :
    ∃ args ret p', (p.slaves id).thread = .finished args ret ∧
      Pool.joinSlave { p with readyQueue := queue } id = some (ret, p') := by
  have hmem : id ∈ p.readyQueue := hqueue ▸ List.mem_cons_self
  obtain ⟨args, ret, hf⟩ := h.finished hmem
  exact ⟨args, ret, _, hf, joinSlave_eq_some.mpr ⟨args, hf, rfl⟩⟩

/-! ## `abort_all_slaves` -/

variable {i : Nat} (hi : i < n)

/-- A free slave is passed by. -/
theorem Ok.skip (h : p.Ok own i none) (hfree : (p.slaves ⟨i, hi⟩).free = true) :
    p.Ok own (i + 1) none := by
  refine ⟨h.nodup, h.queued, fun j hj => ?_, fun j hj => ?_, h.has⟩
  · exact (h.mem j hj).imp_right Nat.lt_succ_of_lt
  · rcases Nat.lt_succ_iff_lt_or_eq.mp hj with hj | hj
    · exact h.swept j hj
    · obtain rfl : j = ⟨i, hi⟩ := Fin.ext hj
      exact h.idle_of_free hfree

/-- The next slave is told to stop. -/
theorem Ok.interrupt (h : p.Ok own k none) (id : Fin n) :
    (p.setSlave id { p.slaves id with stop := true }).Ok own k none := by
  refine h.congr rfl fun j => ?_
  by_cases hj : j = id
  · subst hj
    exact ⟨true, _, setSlave_self _ _ _⟩
  · exact ⟨_, _, setSlave_of_ne p _ hj⟩

/-- It is joined and freed. -/
theorem Ok.sweep {ret : Ret} (h : p.Ok own i none)
    (hjoin : p.joinSlave ⟨i, hi⟩ = some (ret, p')) : (p'.freeSlave ⟨i, hi⟩).Ok own (i + 1) none := by
  obtain ⟨hq, -, hothers, _, hself⟩ := joinSlave_slaves hjoin
  have hidle : ((p'.freeSlave ⟨i, hi⟩).slaves ⟨i, hi⟩).Idle := by
    rw [freeSlave, setSlave_self, hself]
    exact ⟨rfl, rfl, rfl⟩
  refine h.change ⟨i, hi⟩ ⟨fun j hj => ?_, fun j hj => ?_, fun j hj => ?_, fun _ _ => Iff.rfl⟩
    ?_ (fun hf => (hidle.not_finished hf).elim) (fun _ => .inr (Nat.lt_succ_self i))
    (fun _ => hidle) (.inl hidle)
  · rw [freeSlave, setSlave_of_ne _ _ hj, hothers j hj]
  · rw [freeSlave, setSlave_readyQueue, hq]
  · have hne : j.val ≠ i := fun he => hj (Fin.ext he)
    omega
  · rw [freeSlave, setSlave_readyQueue, hq]
    exact h.nodup

/-- All slaves have been freed, and the queue is cleared. -/
theorem Ok.clear (h : p.Ok own k none) (hk : n ≤ k) : Pool.Quiet { p with readyQueue := [] } :=
  ⟨fun j => h.swept j (j.isLt.trans_le hk), rfl⟩

end Pool

end HoiChess.ParallelSearch
