import HoiChess.Lib.Window
import HoiChess.Common.Scheduling

/-!
# The loop comes to its end

Master and slaves take turns in any order.  The slaves are true to the values of the nodes: a search
with a window returns the value clamped into it.  Somebody can always take a turn until the loop is
done (`LoopState.exists_turn`), and every turn lowers `rank`, so that in whatever order they
come there are no more turns than the rank at the start (`LoopState.length_le_rank`).
-/

namespace HoiChess.ParallelSearch

open Transition Window

variable {n : Nat} {ν : Type}

/-- Whose turn it is.
* `master`: a step of the loop, with time left
* `finish`: the search of a slave returns
* `abort`: it returns after a stop -/
inductive Turn (n : Nat) where
  | master
  | finish (id : Fin n)
  | abort (id : Fin n)
  deriving DecidableEq, Repr

/-- What a search returns that is true to the value `v` of its node. -/
def trueRet (v : ν → Int) (args : Args ν) : Ret := ⟨clamp args.alpha args.beta (v args.node), false⟩

namespace LoopState

section Turns

variable (cfg : Config ν) (a : Args ν) (v : ν → Int) (s : LoopState n ν)

/-- A step outside the master. -/
def env (e : Env n) : Option (LoopState n ν × List (Output n ν)) :=
  (s.pool.env e).map fun pool => ({ s with pool := pool }, [])

/-- A turn, where the slaves are true to `v`. -/
def turn : Turn n → Option (LoopState n ν × List (Output n ν))
  | .master => s.step cfg a false
  | .finish id =>
    match (s.pool.slaves id).thread with
    | .running args => s.env (.finish id (trueRet v args).score)
    | _ => none
  | .abort id => s.env (.abort id)

/-- A turn, with what is to be seen. -/
def Takes (l : Turn n × List (Output n ν)) (t : LoopState n ν) : Prop :=
  s.turn cfg a v l.1 = some (t, l.2)

/-! ## The rank -/

/-- What is left to do with a slave: its search has to return and be collected, and may have to be
done again. -/
def slaveRank (n : Nat) (slave : Slave ν) : Nat :=
  if slave.free then 0
  else (if slave.pvsNullwin then 2 * n + 6 else 0) +
    match slave.thread with
    | .none => 0
    | .finished _ _ => 2 * n + 5
    | .running _ => 2 * n + 6

def pointRank : LoopPoint n → Nat
  | .assign => 2 * n + 3
  | .check => 2 * n + 2
  | .wait => 0
  | .collected _ _ => 2 * n + 4
  | .interrupting i _ => 2 * (n - i) + 1
  | .joining i _ => 2 * (n - i)
  | .done _ => 0
  | .aborted => 0

def rank : Nat :=
  (4 * n + 13) * s.todo.length + ∑ i, slaveRank n (s.pool.slaves i) + pointRank s.point

end Turns

variable {cfg : Config ν} {a : Args ν} {v : ν → Int} {s t : LoopState n ν}
  {outputs : List (Output n ν)}

theorem slaveRank_free {slave : Slave ν} (h : slave.free = true) : slaveRank n slave = 0 :=
  if_pos h

theorem slaveRank_busy {slave : Slave ν} (h : slave.free = false) :
    slaveRank n slave = (if slave.pvsNullwin then 2 * n + 6 else 0) +
      match slave.thread with
      | .none => 0
      | .finished _ _ => 2 * n + 5
      | .running _ => 2 * n + 6 := by
  unfold slaveRank
  rw [h]
  rfl

theorem slaveRank_le (slave : Slave ν) : slaveRank n slave ≤ 4 * n + 12 := by
  unfold slaveRank
  split
  · exact Nat.zero_le _
  · split <;> split <;> omega

/-- With the same moves to search. -/
theorem rank_lt_of (htodo : t.todo = s.todo)
    (h : ∑ i, slaveRank n (t.pool.slaves i) + pointRank t.point <
      ∑ i, slaveRank n (s.pool.slaves i) + pointRank s.point) : t.rank < s.rank := by
  unfold rank
  rw [htodo]
  omega

theorem rank_lt_start {id : Fin n} {c : ν} {rest : List ν} (htodo : s.todo = c :: rest)
    (hid : s.pool.findFreeSlave = some id) :
    (s.start cfg a id c rest).rank < s.rank := by
  have hchange : ∑ i, slaveRank n ((s.start cfg a id c rest).pool.slaves i) + _ = _ :=
    Pool.sum_change _ fun i hi => Pool.setSlave_of_ne _ _ hi
  rw [slaveRank_free (Pool.findFreeSlave_eq_some hid)] at hchange
  have hle := slaveRank_le (n := n) ((s.start cfg a id c rest).pool.slaves id)
  show (4 * n + 13) * rest.length + _ + pointRank s.point < (4 * n + 13) * s.todo.length + _ + _
  rw [htodo, List.length_cons, Nat.mul_succ]
  omega

theorem rank_lt_collect (hs : s.point.Fits s.pool) {id : Fin n} {queue : List (Fin n)} {ret : Ret}
    {pool : Pool n ν} (hpoint : s.point = .wait) (hqueue : s.pool.readyQueue = id :: queue)
    (hjoin : Pool.joinSlave { s.pool with readyQueue := queue } id = some (ret, pool)) :
    ({ s with pool := pool, point := .collected id ret } : LoopState n ν).rank < s.rank := by
  have hok : s.pool.Ok true 0 none := fits_of hs hpoint
  have hmem : id ∈ s.pool.readyQueue := hqueue ▸ List.mem_cons_self
  have hfree := hok.busy hmem
  obtain ⟨args, ret', hthread⟩ := hok.finished hmem
  obtain ⟨-, -, hothers, _, hself⟩ := Pool.joinSlave_slaves hjoin
  have hchange : ∑ i, slaveRank n (pool.slaves i) + slaveRank n (s.pool.slaves id) =
      ∑ i, slaveRank n (s.pool.slaves i) + slaveRank n (pool.slaves id) := Pool.sum_change _ hothers
  have hold : slaveRank n (s.pool.slaves id) =
      (if (s.pool.slaves id).pvsNullwin then 2 * n + 6 else 0) + (2 * n + 5) := by
    rw [slaveRank_busy hfree, hthread]
  have hnew : slaveRank n (pool.slaves id) =
      if (s.pool.slaves id).pvsNullwin then 2 * n + 6 else 0 := by
    rw [hself]
    exact slaveRank_busy hfree
  refine rank_lt_of rfl ?_
  rw [hpoint]
  show ∑ i, slaveRank n (pool.slaves i) + (2 * n + 4) < _ + 0
  omega

theorem rank_lt_again (hs : s.point.Fits s.pool) {id : Fin n} {ret : Ret} {c : ν}
    (hpoint : s.point = .collected id ret) (hfailed : s.failed a id ret.negate.score = true) :
    (s.again a id c).rank < s.rank := by
  have hok : s.pool.Ok true 0 (some id) := fits_of hs hpoint
  obtain ⟨⟨d, hholds⟩, hthread⟩ := hok.taken_of
  have hnull : (s.pool.slaves id).pvsNullwin = true := by
    unfold failed at hfailed
    rw [Bool.and_assoc] at hfailed
    exact ((Bool.and_eq_true _ _).mp hfailed).1
  have hold : slaveRank n (s.pool.slaves id) = 2 * n + 6 := by
    rw [slaveRank_busy hholds.1, hthread, hnull]
    rfl
  have hnew : slaveRank n ((s.again a id c).pool.slaves id) = 2 * n + 6 := by
    unfold LoopState.again
    rw [Pool.setSlave_self, startThread_eq hthread]
    rw [slaveRank_busy]
    · exact Nat.zero_add _
    · exact hholds.1
  have hchange : ∑ i, slaveRank n ((s.again a id c).pool.slaves i) + _ = _ :=
    Pool.sum_change _ fun i hi => Pool.setSlave_of_ne _ _ hi
  refine rank_lt_of rfl ?_
  rw [hpoint]
  show ∑ i, slaveRank n ((s.again a id c).pool.slaves i) + (2 * n + 3) < _ + (2 * n + 4)
  omega

theorem rank_lt_accept {id : Fin n} {ret : Ret} {c : ν} (hpoint : s.point = .collected id ret) :
    (s.accept a id c ret.negate).rank < s.rank := by
  have hnew : slaveRank n ((s.accept a id c ret.negate).pool.slaves id) = 0 := by
    unfold LoopState.accept Pool.freeSlave
    rw [Pool.setSlave_self]
    rfl
  have hchange : ∑ i, slaveRank n ((s.accept a id c ret.negate).pool.slaves i) + _ = _ :=
    Pool.sum_change _ fun i hi => Pool.setSlave_of_ne _ _ hi
  have hnext : pointRank (s.accept a id c ret.negate).point < 2 * n + 4 := by
    show pointRank (if _ then .interrupting 0 true else .assign) < _
    split
    · show 2 * (n - 0) + 1 < _
      omega
    · show 2 * n + 3 < _
      omega
  refine rank_lt_of rfl ?_
  rw [hpoint]
  show ∑ i, slaveRank n ((s.accept a id c ret.negate).pool.slaves i) + _ < _ + (2 * n + 4)
  omega

theorem rank_lt_interrupt {i : Nat} {cutoff : Bool} (hpoint : s.point = .interrupting i cutoff)
    (hi : i < n) :
    rank { s with
      pool := s.pool.setSlave ⟨i, hi⟩ { s.pool.slaves ⟨i, hi⟩ with stop := true }
      point := .joining ⟨i, hi⟩ cutoff } < s.rank := by
  have hsame : ∀ j, slaveRank n ((s.pool.setSlave ⟨i, hi⟩
      { s.pool.slaves ⟨i, hi⟩ with stop := true }).slaves j) = slaveRank n (s.pool.slaves j) := by
    intro j
    by_cases hj : j = ⟨i, hi⟩
    · subst hj
      rw [Pool.setSlave_self]
      rfl
    · rw [Pool.setSlave_of_ne _ _ hj]
  refine rank_lt_of rfl ?_
  rw [hpoint]
  simp only [hsame]
  exact Nat.add_lt_add_left (show 2 * (n - i) < 2 * (n - i) + 1 by omega) _

theorem rank_lt_clear {i : Nat} {cutoff : Bool} (hpoint : s.point = .interrupting i cutoff) :
    rank { s with
      pool := { s.pool with readyQueue := [] }
      point := if cutoff then .done true else .aborted } < s.rank := by
  have hzero : pointRank (n := n) (if cutoff then .done true else .aborted) = 0 := by
    cases cutoff <;> rfl
  refine rank_lt_of rfl ?_
  rw [hpoint]
  show _ + pointRank (if cutoff then .done true else .aborted) < _ + (2 * (n - i) + 1)
  rw [hzero]
  exact Nat.add_lt_add_left (by omega) _

theorem rank_lt_join {i : Fin n} {cutoff : Bool} {ret : Ret} {pool : Pool n ν}
    (hpoint : s.point = .joining i cutoff) (hjoin : s.pool.joinSlave i = some (ret, pool)) :
    rank { s with pool := pool.freeSlave i, point := .interrupting (i.val + 1) cutoff } < s.rank := by
  obtain ⟨-, -, hothers, _, hself⟩ := Pool.joinSlave_slaves hjoin
  have hchange : ∑ j, slaveRank n ((pool.freeSlave i).slaves j) +
      slaveRank n (s.pool.slaves i) = ∑ j, slaveRank n (s.pool.slaves j) +
        slaveRank n ((pool.freeSlave i).slaves i) :=
    Pool.sum_change _ fun j hj => by rw [Pool.freeSlave, Pool.setSlave_of_ne _ _ hj, hothers j hj]
  have hnew : slaveRank n ((pool.freeSlave i).slaves i) = 0 := by
    rw [Pool.freeSlave, Pool.setSlave_self]
    rfl
  have hi := i.isLt
  refine rank_lt_of rfl ?_
  rw [hpoint]
  show ∑ j, slaveRank n ((pool.freeSlave i).slaves j) + (2 * (n - (i.val + 1)) + 1) <
    _ + 2 * (n - i.val)
  omega

/-- **Every step of the loop lowers the rank.** -/
theorem Steps.rank_lt {timeout : Bool} (h : s.Steps cfg a timeout t outputs)
    (hs : s.point.Fits s.pool) : t.rank < s.rank := by
  cases h with
  | start _ htodo hid => exact rank_lt_start htodo hid
  | complete hpoint hnone hfree =>
    refine rank_lt_of rfl ?_
    rw [hpoint]
    exact Nat.add_lt_add_left (show 0 < 2 * n + 3 by omega) _
  | busy hpoint hnone hbusy =>
    refine rank_lt_of rfl ?_
    rw [hpoint]
    exact Nat.add_lt_add_left (show 2 * n + 2 < 2 * n + 3 by omega) _
  | stop hpoint hstop =>
    refine rank_lt_of rfl ?_
    rw [hpoint]
    exact Nat.add_lt_add_left (show 2 * (n - 0) + 1 < 2 * n + 2 by omega) _
  | goOn hpoint hstop =>
    refine rank_lt_of rfl ?_
    rw [hpoint]
    exact Nat.add_lt_add_left (show 0 < 2 * n + 2 by omega) _
  | collect hpoint hqueue hjoin => exact rank_lt_collect hs hpoint hqueue hjoin
  | again hpoint _ hfailed => exact rank_lt_again hs hpoint hfailed
  | accept hpoint _ _ => exact rank_lt_accept hpoint
  | @skip i cutoff hpoint hi hfree =>
    refine rank_lt_of rfl ?_
    rw [hpoint]
    exact Nat.add_lt_add_left (show 2 * (n - (i + 1)) + 1 < 2 * (n - i) + 1 by omega) _
  | interrupt hpoint hi _ => exact rank_lt_interrupt hpoint hi
  | clear hpoint _ => exact rank_lt_clear hpoint
  | join hpoint hjoin => exact rank_lt_join hpoint hjoin

/-- **So does the return of a slave.** -/
theorem slaveReady_rank_lt {id : Fin n} {args : Args ν} (hs : s.point.Fits s.pool)
    (hrun : (s.pool.slaves id).thread = .running args) (ret : Ret) :
    LoopState.rank { s with pool := s.pool.slaveReady id args ret } < s.rank := by
  have hfree := hs.busy_of_running hrun
  have hself : (s.pool.slaveReady id args ret).slaves id =
      { s.pool.slaves id with thread := .finished args ret } := Pool.setSlave_self _ _ _
  have hold : slaveRank n (s.pool.slaves id) =
      (if (s.pool.slaves id).pvsNullwin then 2 * n + 6 else 0) + (2 * n + 6) := by
    rw [slaveRank_busy hfree, hrun]
  have hnew : slaveRank n ((s.pool.slaveReady id args ret).slaves id) =
      (if (s.pool.slaves id).pvsNullwin then 2 * n + 6 else 0) + (2 * n + 5) := by
    rw [hself]
    exact slaveRank_busy hfree
  have hchange : ∑ i, slaveRank n ((s.pool.slaveReady id args ret).slaves i) +
      slaveRank n (s.pool.slaves id) = ∑ i, slaveRank n (s.pool.slaves i) +
        slaveRank n ((s.pool.slaveReady id args ret).slaves id) :=
    Pool.sum_change _ fun i hi => Pool.setSlave_of_ne _ _ hi
  refine rank_lt_of rfl ?_
  show ∑ i, slaveRank n ((s.pool.slaveReady id args ret).slaves i) + pointRank s.point < _
  omega

/-! ## Turns -/

/-- **What a turn can be.** -/
theorem turn_cases {turn : Turn n} (h : s.turn cfg a v turn = some (t, outputs)) :
    (turn = .master ∧ s.Steps cfg a false t outputs) ∨
    ∃ id args ret, (s.pool.slaves id).thread = .running args ∧
      (ret = trueRet v args ∨ (s.pool.slaves id).stop = true) ∧
      t = { s with pool := s.pool.slaveReady id args ret } ∧ turn ≠ .master := by
  cases turn with
  | master => exact .inl ⟨rfl, step_iff.mp h⟩
  | finish id =>
    simp only [LoopState.turn] at h
    split at h
    · rename_i args hrun
      obtain ⟨pool, he, hres⟩ := Option.map_eq_some_iff.mp h
      obtain ⟨rfl, -⟩ := Prod.mk.inj hres
      obtain ⟨args', hrun', rfl⟩ := Pool.env_finish he
      obtain rfl := Thread.running.inj (hrun.symm.trans hrun')
      exact .inr ⟨id, args, _, hrun, .inl rfl, rfl, by simp⟩
    · cases h
  | abort id =>
    obtain ⟨pool, he, hres⟩ := Option.map_eq_some_iff.mp h
    obtain ⟨rfl, -⟩ := Prod.mk.inj hres
    obtain ⟨args, hrun, hstop, rfl⟩ := Pool.env_abort he
    exact .inr ⟨id, args, _, hrun, .inr hstop, rfl, by simp⟩

/-- The master waits for slaves only if one is busy. -/
def Awaits (s : LoopState n ν) : Prop :=
  s.point = .check ∨ s.point = .wait → s.pool.allSlavesFree = false

/-- What holds at each turn. -/
structure InOrder (s : LoopState n ν) : Prop where
  fits : s.point.Fits s.pool
  awaits : s.Awaits

theorem Steps.awaits {timeout : Bool} (h : s.Steps cfg a timeout t outputs) (hs : s.Awaits) :
    t.Awaits := by
  cases h with
  | start hpoint htodo hid =>
    intro hnext
    have hnext' : s.point = .check ∨ s.point = .wait := hnext
    rw [hpoint] at hnext'
    simp at hnext'
  | busy hpoint hnone hbusy => exact fun _ => hbusy
  | goOn hpoint hstop => exact fun _ => hs (.inl hpoint)
  | accept hpoint hnode hfinal =>
    intro hnext
    simp only [LoopState.accept] at hnext
    split at hnext <;> simp at hnext
  | @clear i cutoff hpoint hi =>
    intro hnext
    cases cutoff <;> simp at hnext
  | _ => exact fun hnext => by simp [LoopState.again] at hnext

/-- **Every turn keeps order and lowers the rank.** -/
theorem InOrder.turn {turn : Turn n} (hs : s.InOrder) (h : s.turn cfg a v turn = some (t, outputs)) :
    t.InOrder ∧ t.rank < s.rank := by
  obtain ⟨-, hstep⟩ | ⟨id, args, ret, hrun, -, rfl, -⟩ := turn_cases h
  · exact ⟨⟨hstep.fits hs.fits, hstep.awaits hs.awaits⟩, hstep.rank_lt hs.fits⟩
  · refine ⟨⟨hs.fits.slaveReady hrun, fun hpoint => ?_⟩, slaveReady_rank_lt hs.fits hrun ret⟩
    refine Bool.eq_false_iff.mpr fun hall => ?_
    have hfree := Pool.allSlavesFree_iff.mp hall id
    have hself : (s.pool.slaveReady id args ret).slaves id =
        { s.pool.slaves id with thread := .finished args ret } := Pool.setSlave_self _ _ _
    rw [hself] at hfree
    cases hfree.symm.trans (hs.fits.busy_of_running hrun)

/-- A search that runs can return. -/
theorem exists_finish {id : Fin n} {args : Args ν} (hrun : (s.pool.slaves id).thread = .running args) :
    ∃ t outputs, s.turn cfg a v (.finish id) = some (t, outputs) := by
  simp only [LoopState.turn, LoopState.env, Pool.env, hrun]
  exact ⟨_, _, rfl⟩

/-- **Somebody can take a turn**, until the loop is left. -/
theorem exists_turn (cfg : Config ν) (a : Args ν) (v : ν → Int) (hs : s.InOrder)
    (hdone : ∀ cutoff, s.point ≠ .done cutoff) (haborted : s.point ≠ .aborted) :
    ∃ turn t outputs, s.turn cfg a v turn = some (t, outputs) := by
  have hmaster : (∃ t outputs, s.Steps cfg a false t outputs) →
      ∃ turn t outputs, s.turn cfg a v turn = some (t, outputs) := by
    rintro ⟨t, outputs, hstep⟩
    exact ⟨.master, t, outputs, step_iff.mpr hstep⟩
  have hfinish : ∀ id, (s.pool.slaves id).Working true → ¬ (s.pool.slaves id).Finished →
      ∃ turn t outputs, s.turn cfg a v turn = some (t, outputs) := by
    intro id hwork hnot
    cases hthread : (s.pool.slaves id).thread with
    | none => exact (hwork.2 hthread).elim
    | running args => exact ⟨_, exists_finish hthread⟩
    | finished args ret => exact (hnot ⟨args, ret, hthread⟩).elim
  cases hpoint : s.point with
  | assign =>
    refine hmaster ?_
    cases htodo : s.todo with
    | nil =>
      cases hfree : s.pool.allSlavesFree with
      | true => exact ⟨_, _, .complete hpoint (.inl htodo) hfree⟩
      | false => exact ⟨_, _, .busy hpoint (.inl htodo) hfree⟩
    | cons c rest =>
      cases hid : s.pool.findFreeSlave with
      | some id => exact ⟨_, _, .start hpoint htodo hid⟩
      | none =>
        cases hfree : s.pool.allSlavesFree with
        | true => exact ⟨_, _, .complete hpoint (.inr hid) hfree⟩
        | false => exact ⟨_, _, .busy hpoint (.inr hid) hfree⟩
  | check =>
    refine hmaster ?_
    cases hstop : (s.pool.checkTime false).stop with
    | true => exact ⟨_, _, .stop hpoint hstop⟩
    | false => exact ⟨_, _, .goOn hpoint hstop⟩
  | wait =>
    have hok : s.pool.Ok true 0 none := fits_of hs.fits hpoint
    cases hqueue : s.pool.readyQueue with
    | cons id queue =>
      obtain ⟨args, ret, pool, -, hjoin⟩ := hok.exists_join hqueue
      exact hmaster ⟨_, _, .collect hpoint hqueue hjoin⟩
    | nil =>
      obtain ⟨id, hbusy⟩ : ∃ id, (s.pool.slaves id).free = false := by
        by_contra hnone
        have hall := Pool.allSlavesFree_iff.mpr fun i =>
          (Bool.not_eq_false _).mp fun hi => hnone ⟨i, hi⟩
        cases hall.symm.trans (hs.awaits (.inr hpoint))
      refine hfinish id (hok.working_of_busy hbusy) fun hf => ?_
      have hmem := hok.queued id hf
      rw [hqueue] at hmem
      cases hmem
  | collected id ret =>
    have hok : s.pool.Ok true 0 (some id) := fits_of hs.fits hpoint
    obtain ⟨⟨c, hholds⟩, -⟩ := hok.taken_of
    refine hmaster ?_
    cases hfailed : s.failed a id ret.negate.score with
    | true => exact ⟨_, _, .again hpoint hholds.2.1 hfailed⟩
    | false => exact ⟨_, _, .accept hpoint hholds.2.1 hfailed⟩
  | interrupting i cutoff =>
    refine hmaster ?_
    rcases Nat.lt_or_ge i n with hi | hi
    · cases hfree : (s.pool.slaves ⟨i, hi⟩).free with
      | true => exact ⟨_, _, .skip hpoint hi hfree⟩
      | false => exact ⟨_, _, .interrupt hpoint hi hfree⟩
    · exact ⟨_, _, .clear hpoint hi⟩
  | joining i cutoff =>
    obtain ⟨hok, hbusy⟩ := fits_of hs.fits hpoint
    have hwork := hok.working_of_busy hbusy
    by_cases hf : (s.pool.slaves i).Finished
    · obtain ⟨args, ret, hthread⟩ := hf
      exact hmaster ⟨_, _, .join hpoint (Pool.joinSlave_eq_some.mpr ⟨args, hthread, rfl⟩)⟩
    · exact hfinish i hwork hf
  | done cutoff => exact (hdone cutoff hpoint).elim
  | aborted => exact (haborted hpoint).elim

/-- **There are no more turns than the rank at the start.** -/
theorem length_le_rank {ls : List (Turn n × List (Output n ν))} (hs : s.InOrder)
    (hrun : Runs (Takes cfg a v) s ls t) :
    t.InOrder ∧ ls.length + t.rank ≤ s.rank := by
  induction hrun with
  | start => exact ⟨hs, by simp⟩
  | next _ hstep ih =>
    obtain ⟨hinv, hle⟩ := ih
    obtain ⟨hinv', hlt⟩ := hinv.turn hstep
    refine ⟨hinv', ?_⟩
    rw [List.length_append, List.length_singleton]
    omega

end LoopState

end HoiChess.ParallelSearch
