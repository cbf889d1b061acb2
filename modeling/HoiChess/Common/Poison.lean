import HoiChess.Common.Scheduling

/-!
# Scores of aborted slaves

Master and slaves look at the clock on their own, and a slave that has noticed the end of its time
returns `INT_MIN`.  The master looks at its stop flag before it waits for a slave, but not between
the return of a slave and the use of its score: what `nonparallel_search` and `parallel_search` take
from a slave goes to the hash table in any case.  A score goes astray only there: as long as the
slaves that are collected have finished their searches, no score of an aborted one is used
(`System.unpoisoned`).
-/

namespace HoiChess.ParallelSearch

open Transition

variable {n : Nat} {ν : Type}

/-- The score that goes to `store_hashtable`, `set_best` or `alpha`. -/
def Output.score : Output n ν → Option Ret
  | .best ret => some ret
  | .raised ret => some ret
  | .stored _ _ _ _ ret => some ret
  | _ => none

/-- No score of an aborted search is used. -/
def Unpoisoned (outputs : List (Output n ν)) : Prop :=
  ∀ o ∈ outputs, ∀ ret, o.score = some ret → ret.aborted = false

/-- What has been collected is no score of an aborted search, and a loop that gives up knows of a
stop. -/
def LoopPoint.Clean (stop : Bool) : LoopPoint n → Prop
  | .collected _ ret => ret.aborted = false
  | .interrupting _ cutoff => cutoff = false → stop = true
  | .joining _ cutoff => cutoff = false → stop = true
  | .aborted => stop = true
  | _ => True

/-- No score of an aborted search is in the variables. -/
structure LoopVars.Clean (stop : Bool) (vars : LoopVars n ν) : Prop where
  alpha : vars.alpha.aborted = false
  bestscore : vars.bestscore.aborted = false
  point : vars.point.Clean stop

/-- A call that has got the score of an aborted search knows of a stop. -/
def Frame.Clean (stop : Bool) : Frame n ν → Prop
  | .base tainted => tainted = true → stop = true
  | .returned ret => ret.aborted = true → stop = true
  | .parallel _ (.loop vars) => vars.Clean stop
  | _ => True

variable {stop stop' : Bool}

theorem LoopPoint.Clean.mono {point : LoopPoint n} (h : point.Clean stop)
    (hstop : stop = true → stop' = true) : point.Clean stop' := by
  cases point with
  | collected id ret => exact h
  | interrupting i cutoff => exact fun hc => hstop (h hc)
  | joining i cutoff => exact fun hc => hstop (h hc)
  | aborted => exact hstop h
  | _ => trivial

theorem Frame.Clean.mono {f : Frame n ν} (h : f.Clean stop) (hstop : stop = true → stop' = true) :
    f.Clean stop' := by
  cases f with
  | base tainted => exact fun ht => hstop (h ht)
  | returned ret => exact fun hr => hstop (h hr)
  | entered a => trivial
  | serial a slave => trivial
  | parallel a point =>
    cases point with
    | loop vars => exact ⟨h.alpha, h.bestscore, h.point.mono hstop⟩
    | _ => trivial

/-- What the next slave in the queue returns. -/
def Pool.nextRet (pool : Pool n ν) : Option Ret :=
  match pool.readyQueue with
  | [] => none
  | id :: _ =>
    match (pool.slaves id).thread with
    | .finished _ ret => some ret
    | _ => none

/-- Its search has not been aborted. -/
def Pool.NextFinished (pool : Pool n ν) : Prop := pool.nextRet.all (fun ret => !ret.aborted) = true

theorem Pool.NextFinished.joined {pool pool' : Pool n ν} (h : pool.NextFinished) {id : Fin n}
    {queue : List (Fin n)} {ret : Ret} (hqueue : pool.readyQueue = id :: queue)
    (hjoin : Pool.joinSlave { pool with readyQueue := queue } id = some (ret, pool')) :
    ret.aborted = false ∧ pool'.stop = pool.stop := by
  obtain ⟨args, hthread, rfl⟩ := Pool.joinSlave_eq_some.mp hjoin
  refine ⟨?_, rfl⟩
  have hthread' : (pool.slaves id).thread = .finished args ret := hthread
  simpa [NextFinished, nextRet, hqueue, hthread'] using h

theorem unpoisoned_nil : Unpoisoned ([] : List (Output n ν)) := fun _ ho => (List.not_mem_nil ho).elim

theorem unpoisoned_called (args : Args ν) : Unpoisoned [(.called args : Output n ν)] := by
  intro o ho ret hret
  obtain rfl := List.mem_singleton.mp ho
  cases hret

theorem unpoisoned_returned (serial : Bool) (a : Args ν) (exit : Exit) (results : List ν) (r : Ret) :
    Unpoisoned [(.returned serial a exit results r : Output n ν)] := by
  intro o ho ret hret
  obtain rfl := List.mem_singleton.mp ho
  cases hret

theorem Unpoisoned.stored {outputs : List (Output n ν)} (h : Unpoisoned outputs) (c : ν)
    (depth alpha beta : Int) {r : Ret} (hr : r.aborted = false) :
    Unpoisoned (.stored c depth alpha beta r :: outputs) := by
  intro o ho ret hret
  rcases List.mem_cons.mp ho with rfl | ho
  · obtain rfl := Option.some.inj hret
    exact hr
  · exact h o ho ret hret

namespace LoopState

variable {cfg : Config ν} {a : Args ν} {timeout : Bool} {s t : LoopState n ν}
  {outputs : List (Output n ν)}

/-- **A step of the loop** uses no score of an aborted search, if none is collected. -/
theorem Steps.clean (h : s.Steps cfg a timeout t outputs) (hs : s.toLoopVars.Clean s.pool.stop)
    (hnext : s.point = .wait → s.pool.NextFinished) :
    t.toLoopVars.Clean t.pool.stop ∧ (s.pool.stop = true → t.pool.stop = true) ∧
      Unpoisoned outputs := by
  have hpoint : ∀ {point}, s.point = point → point.Clean s.pool.stop := fun he => he ▸ hs.point
  have hstarted : ∀ id args, Unpoisoned [(.started id args : Output n ν)] := by
    intro id args o ho ret hret
    obtain rfl := List.mem_singleton.mp ho
    cases hret
  cases h with
  | start hp htodo hid => exact ⟨⟨hs.alpha, hs.bestscore, hs.point⟩, id, hstarted _ _⟩
  | complete hp hnone hfree => exact ⟨⟨hs.alpha, hs.bestscore, trivial⟩, id, unpoisoned_nil⟩
  | busy hp hnone hbusy => exact ⟨⟨hs.alpha, hs.bestscore, trivial⟩, id, unpoisoned_nil⟩
  | stop hp hstop =>
    exact ⟨⟨hs.alpha, hs.bestscore, fun _ => hstop⟩, fun _ => hstop, unpoisoned_nil⟩
  | goOn hp hstop =>
    refine ⟨⟨hs.alpha, hs.bestscore, trivial⟩, fun h => ?_, unpoisoned_nil⟩
    show (s.pool.stop || timeout) = true
    rw [h, Bool.true_or]
  | collect hp hqueue hjoin =>
    obtain ⟨hret, hstop⟩ := (hnext hp).joined hqueue hjoin
    exact ⟨⟨hs.alpha, hs.bestscore, hret⟩, fun h => hstop.trans h, unpoisoned_nil⟩
  | again hp hnode hfailed => exact ⟨⟨hs.alpha, hs.bestscore, trivial⟩, id, hstarted _ _⟩
  | @accept _ ret c hp hnode hfinal =>
    have hret : ret.negate.aborted = false := hpoint hp
    refine ⟨⟨?_, ?_, ?_⟩, id, ?_⟩
    · show (if _ then ret.negate else s.alpha).aborted = false
      split
      · exact hret
      · exact hs.alpha
    · show (if _ then ret.negate else s.bestscore).aborted = false
      split
      · exact hret
      · exact hs.bestscore
    · show LoopPoint.Clean _ (if _ then .interrupting 0 true else .assign)
      split
      · exact Bool.noConfusion
      · trivial
    · intro o ho r hr
      simp only [acceptOutput, List.mem_append, List.mem_ite_nil_right, List.mem_singleton] at ho
      rcases ho with (⟨-, rfl⟩ | rfl) | ⟨-, rfl⟩ <;> obtain rfl := Option.some.inj hr <;> exact hret
  | skip hp hi hfree =>
    have hcut := hpoint hp
    exact ⟨⟨hs.alpha, hs.bestscore, hcut⟩, id, unpoisoned_nil⟩
  | interrupt hp hi hbusy =>
    have hcut := hpoint hp
    exact ⟨⟨hs.alpha, hs.bestscore, hcut⟩, id, unpoisoned_nil⟩
  | @clear i cutoff hp hi =>
    refine ⟨⟨hs.alpha, hs.bestscore, ?_⟩, id, unpoisoned_nil⟩
    cases cutoff with
    | true => trivial
    | false => exact hpoint hp rfl
  | join hp hjoin =>
    have hcut := hpoint hp
    obtain ⟨args, hthread, rfl⟩ := Pool.joinSlave_eq_some.mp hjoin
    exact ⟨⟨hs.alpha, hs.bestscore, hcut⟩, id, unpoisoned_nil⟩

theorem first_clean (a : Args ν) (pool : Pool n ν) (c : ν) (rest : List ν) {score : Ret}
    (h : score.aborted = false) :
    (first a pool c rest score).toLoopVars.Clean pool.stop ∧
      Unpoisoned (firstOutput a score : List (Output n ν)) := by
  refine ⟨⟨?_, ?_, ?_⟩, ?_⟩
  · show (if _ then score else _).aborted = false
    split
    · exact h
    · rfl
  · show (if _ then score else _).aborted = false
    split
    · exact h
    · rfl
  · show LoopPoint.Clean _ (if _ then .done true else .assign)
    split <;> trivial
  · intro o ho r hr
    simp only [firstOutput, List.mem_append, List.mem_ite_nil_right, List.mem_singleton] at ho
    rcases ho with ⟨-, rfl⟩ | ⟨-, rfl⟩ <;> obtain rfl := Option.some.inj hr <;> exact h

end LoopState

/-- A step of the master. -/
def Action.byMaster : Action n ν → Bool
  | .master _ => true
  | .env _ => false

namespace System

/-- The master is about to take the result of a slave. -/
def collecting (s : System n ν) : Bool :=
  match s.stack with
  | .serial _ (some _) :: _ => true
  | .parallel _ (.loop vars) :: _ => decide (vars.point = .wait)
  | _ => false

/-- If the master collects a slave, its search has not been aborted. -/
def CollectsFinished (s : System n ν) (l : Action n ν × List (Output n ν)) : Prop :=
  l.1.byMaster = true → s.collecting = true → s.pool.NextFinished

instance (s : System n ν) (l : Action n ν × List (Output n ν)) : Decidable (s.CollectsFinished l) :=
  inferInstanceAs (Decidable (_ = true → _ = true → _ = true))

/-- Whoever has got the score of an aborted search knows of a stop. -/
def Clean (s : System n ν) : Prop := ∀ f ∈ s.stack, f.Clean s.pool.stop

variable {cfg : Config ν} {pool : Pool n ν} {stack : List (Frame n ν)} {s t : System n ν}

theorem clean_cons {f : Frame n ν} (hf : f.Clean pool.stop) (hstack : ∀ g ∈ stack, g.Clean pool.stop) :
    Clean ⟨pool, f :: stack⟩ := List.forall_mem_cons.mpr ⟨hf, hstack⟩

variable [DecidableEq ν] {choice : Choice ν} {res : System n ν × List (Output n ν)}

omit [DecidableEq ν] in
theorem enter_step_clean {a stack} (hs : Clean ⟨pool, .entered a :: stack⟩) :
    Clean ⟨pool, enteredStep cfg a :: stack⟩ ∧ Unpoisoned ([] : List (Output n ν)) := by
  obtain ⟨hf, hrest⟩ := List.forall_mem_cons.mp hs
  refine ⟨clean_cons ?_ hrest, unpoisoned_nil⟩
  unfold enteredStep
  split
  · trivial
  · split
    · exact Bool.noConfusion
    · trivial

omit [DecidableEq ν] in
theorem serialJoin_step_clean {a stack id queue r pool'}
    (hmono : ∀ (timeout : Bool) (rest : List (Frame n ν)),
      (∀ g ∈ rest, g.Clean pool.stop) → ∀ g ∈ rest, g.Clean (pool.checkTime timeout).stop)
    (hs : Clean ⟨pool, .serial a (some id) :: stack⟩)
    (hnext : collecting ⟨pool, .serial a (some id) :: stack⟩ = true → pool.NextFinished)
    (timeout : Bool) (hqueue : pool.readyQueue = id :: queue)
    (hjoin : Pool.joinSlave { pool with readyQueue := queue } id = some (r, pool')) :
    Clean ⟨(pool'.checkTime timeout).setSlave id
        { (pool'.checkTime timeout).slaves id with free := true }, .returned r :: stack⟩ ∧
      Unpoisoned ([.stored a.node a.depth a.alpha a.beta r, .returned true a .complete [] r] :
        List (Output n ν)) := by
  obtain ⟨hf, hrest⟩ := List.forall_mem_cons.mp hs
  obtain ⟨hr, hstop⟩ := (hnext rfl).joined hqueue hjoin
  refine ⟨clean_cons (fun h => ?_) ?_, (unpoisoned_returned _ _ _ _ _).stored _ _ _ _ hr⟩
  · cases hr.symm.trans h
  · intro g hg
    have hclean := hmono timeout _ hrest g hg
    show g.Clean (_ || timeout)
    rw [hstop]
    exact hclean

omit [DecidableEq ν] in
theorem done_step_clean {a vars stack} {cutoff : Bool}
    (hs : Clean ⟨pool, .parallel a (.loop vars) :: stack⟩) :
    Clean ⟨pool, .returned (if cfg.failsoft then vars.bestscore else vars.alpha) :: stack⟩ ∧
      Unpoisoned ([.stored a.node a.depth a.alpha a.beta
          (if cfg.failsoft then vars.bestscore else vars.alpha),
        .returned false a (if cutoff then .cutoff else .complete) vars.results
          (if cfg.failsoft then vars.bestscore else vars.alpha)] : List (Output n ν)) := by
  obtain ⟨hf, hrest⟩ := List.forall_mem_cons.mp hs
  have hr : (if cfg.failsoft then vars.bestscore else vars.alpha).aborted = false := by
    split
    · exact hf.bestscore
    · exact hf.alpha
  refine ⟨clean_cons (fun h => ?_) hrest, (unpoisoned_returned _ _ _ _ _).stored _ _ _ _ hr⟩
  cases hr.symm.trans h

omit [DecidableEq ν] in
theorem nullCut_step_clean {r a stack}
    (hs : Clean ⟨pool, .returned r :: .parallel a .nullMove :: stack⟩) :
    Clean (ret pool stack false a .nullMove []
        (if cfg.failsoft then r.negate else ⟨a.beta, r.negate.aborted⟩)).1 ∧
      Unpoisoned (ret pool stack false a .nullMove []
        (if cfg.failsoft then r.negate else ⟨a.beta, r.negate.aborted⟩)).2 := by
  obtain ⟨hr, hrest⟩ := List.forall_mem_cons.mp hs
  refine ⟨clean_cons ?_ (List.forall_mem_cons.mp hrest).2, unpoisoned_returned _ _ _ _ _⟩
  split
  · exact hr
  · exact hr

omit [DecidableEq ν] in
theorem first_step_clean {r a c todo stack}
    (hmono : ∀ (timeout : Bool) (rest : List (Frame n ν)),
      (∀ g ∈ rest, g.Clean pool.stop) → ∀ g ∈ rest, g.Clean (pool.checkTime timeout).stop)
    (hs : Clean ⟨pool, .returned r :: .parallel a (.first c todo) :: stack⟩) (timeout : Bool)
    (hstop : (pool.checkTime timeout).stop = false) :
    Clean ⟨pool.checkTime timeout, .parallel a (.loop
        (LoopState.first a (pool.checkTime timeout) c todo r.negate).toLoopVars) :: stack⟩ ∧
      Unpoisoned (LoopState.firstOutput a r.negate : List (Output n ν)) := by
  obtain ⟨hr, hrest⟩ := List.forall_mem_cons.mp hs
  have haborted : r.negate.aborted = false := by
    refine Bool.eq_false_iff.mpr fun h => ?_
    have hstop' : (pool.stop || timeout) = false := hstop
    rw [hr h, Bool.true_or] at hstop'
    cases hstop'
  obtain ⟨hvars, houtputs⟩ := LoopState.first_clean a (pool.checkTime timeout) c todo haborted
  exact ⟨clean_cons hvars (hmono timeout _ (List.forall_mem_cons.mp hrest).2), houtputs⟩

omit [DecidableEq ν] in
/-- **A step of the master** uses no score of an aborted search, if none is collected. -/
theorem MasterSteps.clean (h : MasterSteps cfg pool stack choice res) (hs : Clean ⟨pool, stack⟩)
    (hnext : collecting ⟨pool, stack⟩ = true → pool.NextFinished) : Clean res.1 ∧ Unpoisoned res.2 := by
  have hmono : ∀ (timeout : Bool) (rest : List (Frame n ν)), (∀ g ∈ rest, g.Clean pool.stop) →
      ∀ g ∈ rest, g.Clean (pool.checkTime timeout).stop := by
    intro timeout rest hrest g hg
    refine (hrest g hg).mono fun h => ?_
    show (pool.stop || timeout) = true
    rw [h, Bool.true_or]
  cases h with
  | call => exact ⟨clean_cons trivial hs, unpoisoned_called _⟩
  | back hr =>
    obtain ⟨hf, hrest⟩ := List.forall_mem_cons.mp hs
    exact ⟨clean_cons (fun h => (hr h).elim hf id) hrest, unpoisoned_nil⟩
  | count =>
    obtain ⟨hf, hrest⟩ := List.forall_mem_cons.mp hs
    exact ⟨clean_cons hf hrest, unpoisoned_nil⟩
  | enter => exact enter_step_clean hs
  | serialAnswer | answer =>
    obtain ⟨hf, hrest⟩ := List.forall_mem_cons.mp hs
    exact ⟨clean_cons Bool.noConfusion hrest, unpoisoned_returned _ _ _ _ _⟩
  | serialStart hid =>
    obtain ⟨hf, hrest⟩ := List.forall_mem_cons.mp hs
    refine ⟨clean_cons trivial hrest, fun o ho ret hret => ?_⟩
    obtain rfl := List.mem_singleton.mp ho
    cases hret
  | serialJoin timeout hqueue hjoin => exact serialJoin_step_clean hmono hs hnext timeout hqueue hjoin
  | probe | noNullMove | noDeepening =>
    obtain ⟨hf, hrest⟩ := List.forall_mem_cons.mp hs
    exact ⟨clean_cons trivial hrest, unpoisoned_nil⟩
  | nullMove | deepen | order =>
    obtain ⟨hf, hrest⟩ := List.forall_mem_cons.mp hs
    exact ⟨clean_cons trivial (List.forall_mem_cons.mpr ⟨trivial, hrest⟩), unpoisoned_called _⟩
  | done _ => exact done_step_clean hs
  | aborted hpoint =>
    obtain ⟨hf, hrest⟩ := List.forall_mem_cons.mp hs
    have hstop := hf.point
    rw [hpoint] at hstop
    exact ⟨clean_cons (fun _ => hstop) hrest, unpoisoned_returned _ _ _ _ _⟩
  | loop timeout hstep =>
    obtain ⟨hf, hrest⟩ := List.forall_mem_cons.mp hs
    obtain ⟨hvars, hstop, houtputs⟩ := hstep.clean hf fun hp => hnext (decide_eq_true hp)
    exact ⟨clean_cons hvars fun g hg => (hrest g hg).mono hstop, houtputs⟩
  | @toBase r tainted _ =>
    obtain ⟨hr, hrest⟩ := List.forall_mem_cons.mp hs
    obtain ⟨hf, hrest⟩ := List.forall_mem_cons.mp hrest
    refine ⟨clean_cons (fun h => ?_) hrest, unpoisoned_nil⟩
    exact ((Bool.or_eq_true _ _).mp h).elim hf hr
  | nullCut _ => exact nullCut_step_clean hs
  | nullFailed | deepened =>
    obtain ⟨hr, hrest⟩ := List.forall_mem_cons.mp hs
    exact ⟨clean_cons trivial (List.forall_mem_cons.mp hrest).2, unpoisoned_nil⟩
  | firstStopped timeout hstop =>
    obtain ⟨hr, hrest⟩ := List.forall_mem_cons.mp hs
    exact ⟨clean_cons (fun _ => hstop) (hmono timeout _ (List.forall_mem_cons.mp hrest).2),
      unpoisoned_returned _ _ _ _ _⟩
  | first timeout hstop => exact first_step_clean hmono hs timeout hstop

omit [DecidableEq ν] in
theorem create_clean : Clean (create n ν) := by
  intro f hf
  obtain rfl := List.mem_singleton.mp hf
  exact Bool.noConfusion

theorem Step.clean {l : Action n ν × List (Output n ν)} (h : s.Step cfg l t) (hs : s.Clean)
    (hl : s.CollectsFinished l) : t.Clean ∧ Unpoisoned l.2 := by
  obtain ⟨action, outputs⟩ := l
  cases action with
  | env e =>
    obtain ⟨pool, he, hres⟩ := Option.map_eq_some_iff.mp h
    obtain ⟨rfl, rfl⟩ := Prod.mk.inj hres
    exact ⟨fun f hf => (hs f hf).mono (Pool.env_stop he), unpoisoned_nil⟩
  | master choice => exact (masterStep_cases h).clean hs (hl rfl)

/-- **As long as the slaves that are collected have finished their searches**, no score of an
aborted one is used. -/
theorem unpoisoned {ls : List (Action n ν × List (Output n ν))}
    (hrun : Runs (Under CollectsFinished (Step cfg)) (create n ν) ls s) :
    ∀ l ∈ ls, Unpoisoned l.2 :=
  hrun.along create_clean fun _ _ _ hs hstep => Step.clean hstep.2 hs hstep.1

/-! ## One slave -/

/-- A slave that has to stop while it searches a node on its own. -/
def interrupted : List (Action 1 Nat) :=
  [.master (.call ⟨0, 0, 1, -10, 10⟩), .master .go, .master .go, .env (.interruptSlave 0),
    .env (.abort 0), .master .timeout]

/-- A slave that finishes. -/
def finished : List (Action 1 Nat) :=
  [.master (.call ⟨0, 0, 1, -10, 10⟩), .master .go, .master .go, .env (.finish 0 3), .master .go]

/-- **`INT_MIN` is stored for the node.** -/
theorem poisoned : ∃ ls s, Runs (Step twoMoves) (create 1 Nat) ls s ∧ ¬ ∀ l ∈ ls, Unpoisoned l.2 := by
  have htrace : (trace (step twoMoves) (create 1 Nat) interrupted).any (fun r =>
      r.1.any fun l => decide (.stored 0 1 (-10) 10 .abort ∈ l.2)) = true := by decide +kernel
  obtain ⟨⟨ls, s⟩, hs, h⟩ := (Option.any_eq_true _ _).mp htrace
  obtain ⟨l, hl, hstored⟩ := List.any_eq_true.mp h
  refine ⟨ls, s, runs_of_trace hs, fun hall => ?_⟩
  cases hall l hl _ (of_decide_eq_true hstored) _ rfl

theorem unpoisoned_finished : ∃ ls s, Runs (Under CollectsFinished (Step twoMoves)) (create 1 Nat) ls s ∧
    ls.length = 5 ∧ ∀ l ∈ ls, Unpoisoned l.2 := by
  have htrace : (trace (guarded CollectsFinished (step twoMoves)) (create 1 Nat) finished).any (fun r =>
      decide (r.1.length = 5)) = true := by decide +kernel
  obtain ⟨⟨ls, s⟩, hs, h⟩ := (Option.any_eq_true _ _).mp htrace
  exact ⟨ls, s, runs_under_of_trace hs, of_decide_eq_true h, unpoisoned (runs_under_of_trace hs)⟩

end System

end HoiChess.ParallelSearch
