import HoiChess.Common.Poison
import HoiChess.Common.ScoreRange

/-!
# The arithmetic of the parallel search

`System.operations` are the windows and negations that a step of `parallel_search` computes.  What
it asks for are windows, and what it returns can be negated unless it has been aborted, if the
slaves and the other calls of the master do the same (`MasterSteps.ranged`); and so they do
(`Call.checked_alike`).  On either side a negation overflows exactly if the search whose score is
negated has been aborted (`System.scores_fit_iff`).
-/

namespace HoiChess.ParallelSearch

open Chess Transition Search

variable {n : Nat} {ν : Type}

/-! ## The operations -/

/-- The arithmetic of a step of the loop. -/
def LoopState.operations (cfg : Config ν) (a : Args ν) (s : LoopState n ν) : List Operation :=
  match s.point with
  | .assign =>
    match s.todo, s.pool.findFreeSlave with
    | c :: _, some _ =>
      [.window (-a.beta) (-s.alpha.score),
        .window (s.slaveArgs cfg a c).alpha (s.slaveArgs cfg a c).beta]
    | _, _ => []
  | .collected id ret =>
    [.negation ret,
      if s.failed a id ret.negate.score then .window (-a.beta) (-s.alpha.score)
      else .window (-a.beta) (-a.alpha)]
  | _ => []

/-- The arithmetic of a step of `parallel_search`; at `done` there has been a move, so that it has no
use for a mate score. -/
def System.operations (cfg : Config ν) (s : System n ν) : Action n ν → List Operation
  | .env _ => []
  | .master choice =>
    match s.stack, choice with
    | .parallel a .probing :: _, .nullMove _ => [.window (-a.beta) (-a.beta + 1)]
    | .returned r :: .parallel _ .nullMove :: _, _ => [.negation r]
    | .parallel a .ready :: _, .order _ => [.window (-a.beta) (-a.alpha)]
    | .returned r :: .parallel _ (.first _ _) :: _, _ => [.negation r]
    | .parallel a (.loop vars) :: _, _ => LoopState.operations cfg a ⟨vars, s.pool⟩
    | _, _ => []

/-! ## The scores -/

/-- The score of a search that was not aborted. -/
structure Usable (r : Ret) : Prop where
  finished : r.aborted = false
  score : Negatable r.score

section Scores

variable {r : Ret} {score bound : Int}

theorem usable_of (h : Negatable score) : Usable ⟨score, false⟩ := ⟨rfl, h⟩

theorem Usable.honest (h : Usable r) : Honest r :=
  ⟨fun ha => absurd (h.finished.symm.trans ha) Bool.false_ne_true, fun _ => h.score⟩

/-- A negated score above a bound is not that of an aborted search: `INT_MIN` stays below. -/
theorem Usable.of_lt (h : Honest r) (hbound : intMin < bound) (hlt : bound < r.negate.score) :
    Usable r.negate := by
  have hr : r.aborted = false := Bool.eq_false_iff.mpr fun ha =>
    absurd hlt (not_lt.mpr (negate_aborted_le (h.aborted ha) hbound))
  exact ⟨hr, (h.finished hr).negate⟩

end Scores

/-- The slaves that have ended return honest scores. -/
def Pool.Ranged (p : Pool n ν) : Prop :=
  ∀ i args ret, (p.slaves i).thread = .finished args ret → Honest ret

/-- While the loop goes on, there is a window. -/
def LoopPoint.Ranged (alpha beta : Int) : LoopPoint n → Prop
  | .assign => alpha < beta
  | .check => alpha < beta
  | .wait => alpha < beta
  | .collected _ ret => alpha < beta ∧ Honest ret
  | _ => True

structure LoopVars.Ranged (a : Args ν) (vars : LoopVars n ν) : Prop where
  alpha : Usable vars.alpha
  bestscore : Usable vars.bestscore
  point : vars.point.Ranged vars.alpha.score a.beta

def Args.Ranged (a : Args ν) : Prop := IntWindow a.alpha a.beta

def Frame.Ranged : Frame n ν → Prop
  | .base _ => True
  | .entered a => a.Ranged
  | .serial a _ => a.Ranged
  | .parallel a (.loop vars) => a.Ranged ∧ vars.Ranged a
  | .parallel a _ => a.Ranged
  | .returned ret => Honest ret

/-- What is asked for, and what is returned. -/
def Output.Ranged : Output n ν → Prop
  | .started _ args => args.Ranged
  | .called args => args.Ranged
  | .returned _ _ _ _ ret => Honest ret
  | _ => True

/-- What the other calls of the master, the board and the table contribute. -/
def Choice.Ranged : Choice ν → Prop
  | .call args => args.Ranged
  | .back ret => Honest ret
  | .answer score => Negatable score
  | _ => True

/-- What the slaves contribute. -/
def Env.Ranged : Env n → Prop
  | .finish _ score => Negatable score
  | _ => True

def Action.Ranged : Action n ν → Prop
  | .env e => e.Ranged
  | .master choice => choice.Ranged

instance (args : Args ν) : Decidable args.Ranged := inferInstanceAs (Decidable (IntWindow _ _))

instance (choice : Choice ν) : Decidable choice.Ranged := by
  cases choice with
  | call args => exact inferInstanceAs (Decidable args.Ranged)
  | back ret => exact inferInstanceAs (Decidable (Honest ret))
  | answer score => exact inferInstanceAs (Decidable (Negatable score))
  | _ => exact isTrue trivial

instance (action : Action n ν) : Decidable action.Ranged :=
  match action with
  | .env (.finish _ score) => inferInstanceAs (Decidable (Negatable score))
  | .env .interrupt | .env (.interruptSlave _) | .env (.count _ _) | .env (.abort _) => isTrue trivial
  | .master choice => inferInstanceAs (Decidable choice.Ranged)

namespace System

def Ranged (s : System n ν) : Prop := s.pool.Ranged ∧ ∀ f ∈ s.stack, f.Ranged

/-- The step is given windows, and scores that searches return. -/
def Given (_ : System n ν) (l : Action n ν × List (Output n ν)) : Prop := l.1.Ranged

instance (s : System n ν) (l : Action n ν × List (Output n ν)) : Decidable (s.Given l) :=
  inferInstanceAs (Decidable l.1.Ranged)

end System

/-! ## The slaves -/

namespace Pool

variable {p p' : Pool n ν} {id : Fin n} {s : Slave ν}

theorem Ranged.setSlave (h : p.Ranged) (hs : ∀ args ret, s.thread = .finished args ret → Honest ret) :
    (p.setSlave id s).Ranged := by
  intro i args ret hthread
  by_cases hi : i = id
  · subst hi
    rw [setSlave_self] at hthread
    exact hs args ret hthread
  · rw [setSlave_of_ne p s hi] at hthread
    exact h i args ret hthread

/-- A thread that is started has no result. -/
theorem Ranged.startThread (h : p.Ranged) (id : Fin n) (args : Args ν) :
    ∀ args' ret, ((p.slaves id).startThread args).thread = .finished args' ret → Honest ret := by
  intro args' ret hthread
  unfold Slave.startThread at hthread
  split at hthread
  · cases hthread
  · exact h id args' ret hthread

theorem Ranged.join {ret : Ret} (h : p.Ranged) (hjoin : p.joinSlave id = some (ret, p')) :
    Honest ret ∧ p'.Ranged := by
  obtain ⟨args, hthread, rfl⟩ := joinSlave_eq_some.mp hjoin
  refine ⟨h id args ret hthread, ?_⟩
  have hnone : (p.setSlave id { p.slaves id with thread := .none, stop := true }).Ranged :=
    h.setSlave fun _ _ hf => by cases hf
  have hcounted : Ranged ((p.setSlave id { p.slaves id with thread := .none, stop := true }).setSlave id
      { (p.setSlave id { p.slaves id with thread := .none, stop := true }).slaves id with
        lastNodes :=
          ((p.setSlave id { p.slaves id with thread := .none, stop := true }).slaves id).nodes }) :=
    hnone.setSlave (hnone id)
  exact hcounted

/-- A step outside the master. -/
theorem Ranged.env {e : Env n} (h : p.Ranged) (he : p.env e = some p')
    (hgiven : e.Ranged) : p'.Ranged := by
  intro i args ret hthread
  obtain ⟨-, -, -, hsame | ⟨args', ret', -, hend, hcause⟩⟩ := env_slave he i
  · exact h i args ret (hsame.symm.trans hthread)
  · obtain ⟨-, rfl⟩ := Thread.finished.inj (hend.symm.trans hthread)
    rcases hcause with ⟨rfl, ha⟩ | ⟨-, rfl⟩
    · exact ⟨fun h => absurd (ha.symm.trans h) Bool.false_ne_true, fun _ => hgiven⟩
    · exact honest_abort

end Pool

/-! ## The loop -/

namespace LoopState

variable {cfg : Config ν} {a : Args ν} {timeout : Bool} {s t : LoopState n ν}
  {outputs : List (Output n ν)}

/-- The window of the loop. -/
theorem window_of {alpha : Ret} (hw : a.Ranged) (halpha : Usable alpha) (hlt : alpha.score < a.beta) :
    IntWindow alpha.score a.beta := halpha.score.window hlt (negatable_beta hw)

theorem ranged_slaveArgs (cfg : Config ν) (hwin : IntWindow s.alpha.score a.beta) (c : ν) :
    (s.slaveArgs cfg a c).Ranged := by
  unfold slaveArgs
  split
  · exact hwin.null
  · exact hwin.negated

/-- A score is taken for alpha or for the best score only if it is usable. -/
theorem usable_max {best : Ret} {r : Ret} (h : Honest r) (hbest : Usable best) :
    Usable (if r.negate.score > best.score then r.negate else best) := by
  split
  · exact .of_lt h hbest.score.1 ‹_›
  · exact hbest

/-- Below beta there is a window after a score as before it. -/
theorem raised_lt {alpha r : Ret} {beta : Int} (hlt : alpha.score < beta) (hcut : ¬ r.score ≥ beta) :
    (if r.score > alpha.score then r else alpha).score < beta := by
  split
  · exact not_le.mp hcut
  · exact hlt

/-- **A step of the loop** keeps its scores in range. -/
theorem Steps.ranged (h : s.Steps cfg a timeout t outputs) (hw : a.Ranged) (hs : s.toLoopVars.Ranged a)
    (hp : s.pool.Ranged) : t.toLoopVars.Ranged a ∧ t.pool.Ranged ∧ ∀ o ∈ outputs, o.Ranged := by
  have hpoint : ∀ {point}, s.point = point → point.Ranged s.alpha.score a.beta :=
    fun he => he ▸ hs.point
  have hnone : ∀ o ∈ ([] : List (Output n ν)), o.Ranged := List.forall_mem_nil _
  cases h with
  | @start id c rest hat htodo hid =>
    have hlt : s.alpha.score < a.beta := hpoint hat
    refine ⟨⟨hs.alpha, hs.bestscore, hs.point⟩, hp.setSlave (hp.startThread id _), ?_⟩
    exact List.forall_mem_singleton.mpr (ranged_slaveArgs cfg (window_of hw hs.alpha hlt) c)
  | complete => exact ⟨⟨hs.alpha, hs.bestscore, trivial⟩, hp, hnone⟩
  | busy hat =>
    have hlt : s.alpha.score < a.beta := hpoint hat
    exact ⟨⟨hs.alpha, hs.bestscore, hlt⟩, hp, hnone⟩
  | stop => exact ⟨⟨hs.alpha, hs.bestscore, trivial⟩, hp, hnone⟩
  | goOn hat =>
    have hlt : s.alpha.score < a.beta := hpoint hat
    exact ⟨⟨hs.alpha, hs.bestscore, hlt⟩, hp, hnone⟩
  | @collect id queue ret pool hat hqueue hjoin =>
    have hlt : s.alpha.score < a.beta := hpoint hat
    have hpool : Pool.Ranged { s.pool with readyQueue := queue } := hp
    obtain ⟨hret, hpool'⟩ := hpool.join hjoin
    exact ⟨⟨hs.alpha, hs.bestscore, hlt, hret⟩, hpool', hnone⟩
  | @again id ret c hat =>
    obtain ⟨hlt, -⟩ : s.alpha.score < a.beta ∧ Honest ret := hpoint hat
    refine ⟨⟨hs.alpha, hs.bestscore, hlt⟩, hp.setSlave (hp.startThread id _), ?_⟩
    exact List.forall_mem_singleton.mpr (window_of hw hs.alpha hlt).negated
  | @accept id ret c hat =>
    obtain ⟨hlt, hret⟩ : s.alpha.score < a.beta ∧ Honest ret := hpoint hat
    refine ⟨⟨usable_max hret hs.alpha, usable_max hret hs.bestscore, ?_⟩, hp.setSlave (hp id), ?_⟩
    · show LoopPoint.Ranged (if ret.negate.score > s.alpha.score then ret.negate else s.alpha).score
        a.beta (if ret.negate.score ≥ a.beta then .interrupting 0 true else .assign)
      by_cases hcut : ret.negate.score ≥ a.beta
      · rw [if_pos hcut]
        trivial
      · rw [if_neg hcut]
        exact raised_lt hlt hcut
    · intro o ho
      simp only [acceptOutput, List.mem_append, List.mem_ite_nil_right, List.mem_singleton] at ho
      rcases ho with (⟨-, rfl⟩ | rfl) | ⟨-, rfl⟩ <;> trivial
  | skip => exact ⟨⟨hs.alpha, hs.bestscore, trivial⟩, hp, hnone⟩
  | @interrupt i cutoff hat hi hbusy =>
    exact ⟨⟨hs.alpha, hs.bestscore, trivial⟩, hp.setSlave (hp ⟨i, hi⟩), hnone⟩
  | @clear i cutoff =>
    refine ⟨⟨hs.alpha, hs.bestscore, ?_⟩, hp, hnone⟩
    cases cutoff <;> trivial
  | @join i cutoff ret pool hat hjoin =>
    obtain ⟨-, hpool⟩ := hp.join hjoin
    exact ⟨⟨hs.alpha, hs.bestscore, trivial⟩, hpool.setSlave (hpool i), hnone⟩

/-- Windows fit, and so do negations of what was not aborted. -/
theorem fits_operations (hw : a.Ranged) (hs : s.toLoopVars.Ranged a) :
    ∀ op ∈ s.operations cfg a, op.fits = op.unaborted := by
  have hpoint : ∀ {point}, s.point = point → point.Ranged s.alpha.score a.beta :=
    fun he => he ▸ hs.point
  intro op hop
  unfold operations at hop
  split at hop
  · rename_i hat
    have hlt : s.alpha.score < a.beta := hpoint hat
    have hwin := window_of hw hs.alpha hlt
    split at hop
    · rcases List.mem_pair.mp hop with rfl | rfl
      · exact hwin.negated.fits
      · exact IntWindow.fits (ranged_slaveArgs cfg hwin _)
    · cases hop
  · rename_i id ret hat
    obtain ⟨hlt, hret⟩ : s.alpha.score < a.beta ∧ Honest ret := hpoint hat
    rcases List.mem_pair.mp hop with rfl | rfl
    · exact Honest.fits_negation hret
    · split
      · exact (window_of hw hs.alpha hlt).negated.fits
      · exact hw.negated.fits
  · cases hop

theorem ranged_first (hw : a.Ranged) {r : Ret} (hr : Honest r) (pool : Pool n ν) (c : ν) (rest : List ν) :
    (first a pool c rest r.negate).toLoopVars.Ranged a := by
  have halpha : Usable ⟨a.alpha, false⟩ := usable_of (negatable_alpha hw)
  refine ⟨usable_max hr halpha, usable_max hr (usable_of negatable_neg_infty), ?_⟩
  show LoopPoint.Ranged (firstAlpha a r.negate).score a.beta
    (if r.negate.score ≥ a.beta then .done true else .assign)
  by_cases hcut : r.negate.score ≥ a.beta
  · rw [if_pos hcut]
    trivial
  · rw [if_neg hcut]
    have hlt : (⟨a.alpha, false⟩ : Ret).score < a.beta := hw.lt
    exact raised_lt hlt hcut

end LoopState

/-! ## The calls of the master -/

namespace System

variable {cfg : Config ν} {pool : Pool n ν} {stack : List (Frame n ν)} {s t : System n ν}

theorem ranged_cons {f : Frame n ν} (hpool : pool.Ranged) (hf : f.Ranged)
    (hstack : ∀ g ∈ stack, g.Ranged) : Ranged ⟨pool, f :: stack⟩ :=
  ⟨hpool, List.forall_mem_cons.mpr ⟨hf, hstack⟩⟩

theorem ranged_output {o : Output n ν} (h : o.Ranged) : ∀ o' ∈ [o], o'.Ranged :=
  List.forall_mem_singleton.mpr h

/-- Searching a child. -/
theorem ranged_call {args : Args ν} (hpool : pool.Ranged) (hstack : ∀ g ∈ stack, g.Ranged)
    (hargs : args.Ranged) : Ranged (call pool stack args).1 ∧ ∀ o ∈ (call pool stack args).2, o.Ranged :=
  ⟨ranged_cons hpool hargs hstack, ranged_output hargs⟩

/-- Leaving one of the two functions. -/
theorem ranged_ret (hpool : pool.Ranged) (hstack : ∀ g ∈ stack, g.Ranged) (serial : Bool) (a : Args ν)
    (exit : Exit) (results : List ν) {r : Ret} (hr : Honest r) :
    Ranged (ret pool stack serial a exit results r).1 ∧
      ∀ o ∈ (ret pool stack serial a exit results r).2, o.Ranged :=
  ⟨ranged_cons hpool hr hstack, ranged_output hr⟩

theorem ranged_answer (cfg : Config ν) (hpool : pool.Ranged) (hstack : ∀ g ∈ stack, g.Ranged)
    (serial : Bool) {a : Args ν} (ha : a.Ranged) {score : Int} (hscore : Negatable score) :
    Ranged (answer cfg pool stack serial a score).1 ∧
      ∀ o ∈ (answer cfg pool stack serial a score).2, o.Ranged := by
  refine ranged_ret hpool hstack serial a .answered [] (Negatable.honest ?_)
  split
  · exact hscore
  · exact (negatable_alpha ha).bound (negatable_beta ha) hscore

/-- What a call without a loop has been asked for. -/
theorem Frame.Ranged.args {a : Args ν} {point : ParallelPoint n ν}
    (h : (Frame.parallel a point : Frame n ν).Ranged) : a.Ranged := by
  cases point with
  | loop vars => exact h.1
  | _ => exact h

variable [DecidableEq ν] {choice : Choice ν} {res : System n ν × List (Output n ν)}

omit [DecidableEq ν] in
theorem enter_step_ranged {a stack} (hpool : pool.Ranged) (hstack : ∀ g ∈ .entered a :: stack, g.Ranged)
    (hnone : ∀ o ∈ ([] : List (Output n ν)), o.Ranged) :
    Ranged ⟨pool, enteredStep cfg a :: stack⟩ ∧ ∀ o ∈ ([] : List (Output n ν)), o.Ranged := by
  obtain ⟨ha, hrest⟩ := List.forall_mem_cons.mp hstack
  refine ⟨ranged_cons hpool ?_ hrest, hnone⟩
  unfold enteredStep
  split
  · exact ha
  · split
    · trivial
    · exact ha

omit [DecidableEq ν] in
theorem serialJoin_step_ranged {a stack id queue r pool'} (hpool : pool.Ranged)
    (hstack : ∀ g ∈ .serial a (some id) :: stack, g.Ranged) (timeout : Bool)
    (hjoin : Pool.joinSlave { pool with readyQueue := queue } id = some (r, pool')) :
    Ranged ⟨(pool'.checkTime timeout).setSlave id
        { (pool'.checkTime timeout).slaves id with free := true }, .returned r :: stack⟩ ∧
      ∀ o ∈ ([.stored a.node a.depth a.alpha a.beta r, .returned true a .complete [] r] :
        List (Output n ν)), o.Ranged := by
  obtain ⟨-, hrest⟩ := List.forall_mem_cons.mp hstack
  have hpool₁ : Pool.Ranged { pool with readyQueue := queue } := hpool
  obtain ⟨hr, hpool'⟩ := hpool₁.join hjoin
  have hpool₂ : (pool'.checkTime timeout).Ranged := hpool'
  refine ⟨ranged_cons (hpool₂.setSlave (hpool₂ id)) hr hrest, ?_⟩
  exact List.forall_mem_cons.mpr ⟨trivial, ranged_output hr⟩

omit [DecidableEq ν] in
theorem done_step_ranged {a vars stack} {cutoff : Bool} (hpool : pool.Ranged)
    (hstack : ∀ g ∈ .parallel a (.loop vars) :: stack, g.Ranged) :
    Ranged ⟨pool, .returned (if cfg.failsoft then vars.bestscore else vars.alpha) :: stack⟩ ∧
      ∀ o ∈ ([.stored a.node a.depth a.alpha a.beta
          (if cfg.failsoft then vars.bestscore else vars.alpha),
        .returned false a (if cutoff then .cutoff else .complete) vars.results
          (if cfg.failsoft then vars.bestscore else vars.alpha)] : List (Output n ν)), o.Ranged := by
  obtain ⟨⟨-, hvars⟩, hrest⟩ := List.forall_mem_cons.mp hstack
  have hr : Honest (if cfg.failsoft then vars.bestscore else vars.alpha) := by
    split
    · exact hvars.bestscore.honest
    · exact hvars.alpha.honest
  exact ⟨ranged_cons hpool hr hrest, List.forall_mem_cons.mpr ⟨trivial, ranged_output hr⟩⟩

omit [DecidableEq ν] in
theorem nullCut_step_ranged {r a stack} (hpool : pool.Ranged)
    (hstack : ∀ g ∈ .returned r :: .parallel a .nullMove :: stack, g.Ranged)
    (hcut : r.negate.score ≥ a.beta) :
    Ranged (ret pool stack false a .nullMove []
        (if cfg.failsoft then r.negate else ⟨a.beta, r.negate.aborted⟩)).1 ∧
      ∀ o ∈ (ret pool stack false a .nullMove []
        (if cfg.failsoft then r.negate else ⟨a.beta, r.negate.aborted⟩)).2, o.Ranged := by
  obtain ⟨hr, hrest⟩ := List.forall_mem_cons.mp hstack
  obtain ⟨ha, hrest⟩ := List.forall_mem_cons.mp hrest
  have ha : a.Ranged := ha
  have hbelow : intMin < a.beta - 1 := by
    have := ha.lt
    have := ha.intMin_lt
    omega
  have huse : Usable r.negate := .of_lt hr hbelow (by omega)
  refine ranged_ret hpool hrest false a .nullMove [] ?_
  split
  · exact huse.honest
  · have hbeta : Usable ⟨a.beta, r.negate.aborted⟩ := ⟨huse.finished, negatable_beta ha⟩
    exact hbeta.honest

omit [DecidableEq ν] in
theorem first_step_ranged {r a c todo stack} (hpool : pool.Ranged)
    (hstack : ∀ g ∈ .returned r :: .parallel a (.first c todo) :: stack, g.Ranged) (timeout : Bool) :
    Ranged ⟨pool.checkTime timeout, .parallel a (.loop
        (LoopState.first a (pool.checkTime timeout) c todo r.negate).toLoopVars) :: stack⟩ ∧
      ∀ o ∈ (LoopState.firstOutput a r.negate : List (Output n ν)), o.Ranged := by
  obtain ⟨hr, hrest⟩ := List.forall_mem_cons.mp hstack
  obtain ⟨ha, hrest⟩ := List.forall_mem_cons.mp hrest
  have ha : a.Ranged := ha
  have hpool' : (pool.checkTime timeout).Ranged := hpool
  refine ⟨ranged_cons hpool' ⟨ha, LoopState.ranged_first ha hr _ c todo⟩ hrest, fun o ho => ?_⟩
  simp only [LoopState.firstOutput, List.mem_append, List.mem_ite_nil_right, List.mem_singleton] at ho
  rcases ho with ⟨-, rfl⟩ | ⟨-, rfl⟩ <;> trivial

omit [DecidableEq ν] in
/-- **A step of the master** asks for windows and returns honest scores. -/
theorem MasterSteps.ranged (h : MasterSteps cfg pool stack choice res) (hs : Ranged ⟨pool, stack⟩)
    (hgiven : choice.Ranged) : Ranged res.1 ∧ ∀ o ∈ res.2, o.Ranged := by
  obtain ⟨hpool, hstack⟩ := hs
  have hpool : pool.Ranged := hpool
  have hnone : ∀ o ∈ ([] : List (Output n ν)), o.Ranged := List.forall_mem_nil _
  cases h with
  | call => exact ranged_call hpool hstack hgiven
  | back => exact ⟨ranged_cons hpool hgiven (List.forall_mem_cons.mp hstack).2, hnone⟩
  | count => exact ⟨ranged_cons hpool trivial (List.forall_mem_cons.mp hstack).2, hnone⟩
  | enter => exact enter_step_ranged hpool hstack hnone
  | serialAnswer =>
    obtain ⟨ha, hrest⟩ := List.forall_mem_cons.mp hstack
    exact ranged_answer cfg hpool hrest true ha hgiven
  | @serialStart a _ _ id =>
    obtain ⟨ha, hrest⟩ := List.forall_mem_cons.mp hstack
    have ha : a.Ranged := ha
    exact ⟨ranged_cons (hpool.setSlave (hpool.startThread id a)) ha hrest, ranged_output ha⟩
  | serialJoin timeout _ hjoin => exact serialJoin_step_ranged hpool hstack timeout hjoin
  | answer =>
    obtain ⟨ha, hrest⟩ := List.forall_mem_cons.mp hstack
    exact ranged_answer cfg hpool hrest false (Frame.Ranged.args ha) hgiven
  | probe =>
    obtain ⟨ha, hrest⟩ := List.forall_mem_cons.mp hstack
    exact ⟨ranged_cons hpool ha hrest, hnone⟩
  | @nullMove a _ child =>
    obtain ⟨ha, hrest⟩ := List.forall_mem_cons.mp hstack
    have ha : a.Ranged := ha
    have hchild : Args.Ranged ⟨child, a.ply + 1, a.depth - 2 - 1, -a.beta, -a.beta + 1⟩ := ha.pass
    exact ranged_call hpool (List.forall_mem_cons.mpr ⟨ha, hrest⟩) hchild
  | noNullMove | noDeepening =>
    obtain ⟨ha, hrest⟩ := List.forall_mem_cons.mp hstack
    exact ⟨ranged_cons hpool ha hrest, hnone⟩
  | @deepen a =>
    obtain ⟨ha, hrest⟩ := List.forall_mem_cons.mp hstack
    have ha : a.Ranged := ha
    have hchild : Args.Ranged { a with depth := a.depth - 2 } := ha
    exact ranged_call hpool (List.forall_mem_cons.mpr ⟨ha, hrest⟩) hchild
  | @order a _ c rest =>
    obtain ⟨ha, hrest⟩ := List.forall_mem_cons.mp hstack
    have ha : a.Ranged := ha
    have hchild : Args.Ranged (LoopState.childArgs a c (-a.beta) (-a.alpha)) := ha.negated
    exact ranged_call hpool (List.forall_mem_cons.mpr ⟨ha, hrest⟩) hchild
  | done _ => exact done_step_ranged hpool hstack
  | aborted =>
    obtain ⟨-, hrest⟩ := List.forall_mem_cons.mp hstack
    exact ranged_ret hpool hrest false _ .stopped _ honest_abort
  | loop timeout hstep =>
    obtain ⟨⟨ha, hvars⟩, hrest⟩ := List.forall_mem_cons.mp hstack
    obtain ⟨hvars', hpool', houtputs⟩ := hstep.ranged ha hvars hpool
    exact ⟨ranged_cons hpool' ⟨ha, hvars'⟩ hrest, houtputs⟩
  | toBase =>
    obtain ⟨-, hrest⟩ := List.forall_mem_cons.mp hstack
    exact ⟨ranged_cons hpool trivial (List.forall_mem_cons.mp hrest).2, hnone⟩
  | nullCut hcut => exact nullCut_step_ranged hpool hstack hcut
  | nullFailed | deepened =>
    obtain ⟨-, hrest⟩ := List.forall_mem_cons.mp hstack
    obtain ⟨ha, hrest⟩ := List.forall_mem_cons.mp hrest
    exact ⟨ranged_cons hpool ha hrest, hnone⟩
  | @firstStopped r a c rest _ _ timeout =>
    obtain ⟨-, hrest⟩ := List.forall_mem_cons.mp hstack
    have hpool' : (pool.checkTime timeout).Ranged := hpool
    exact ranged_ret hpool' (List.forall_mem_cons.mp hrest).2 false a .stopped [] honest_abort
  | first timeout _ => exact first_step_ranged hpool hstack timeout

theorem Step.ranged {l : Action n ν × List (Output n ν)} (h : s.Step cfg l t) (hs : s.Ranged)
    (hgiven : s.Given l) : t.Ranged ∧ ∀ o ∈ l.2, o.Ranged := by
  obtain ⟨action, outputs⟩ := l
  cases action with
  | env e =>
    obtain ⟨pool, he, hres⟩ := Option.map_eq_some_iff.mp h
    obtain ⟨rfl, rfl⟩ := Prod.mk.inj hres
    exact ⟨⟨hs.1.env he hgiven, hs.2⟩, List.forall_mem_nil _⟩
  | master choice => exact (masterStep_cases h).ranged hs hgiven

omit [DecidableEq ν] in
theorem ranged_create : Ranged (create n ν) := by
  refine ⟨fun i args ret h => (by cases h), fun f hf => ?_⟩
  obtain rfl := List.mem_singleton.mp hf
  trivial

omit [DecidableEq ν] in
/-- **The arithmetic of a step** fits, but for the negation of what was aborted. -/
theorem Ranged.fits_operations (hs : s.Ranged) (action : Action n ν) :
    ∀ op ∈ s.operations cfg action, op.fits = op.unaborted := by
  obtain ⟨pool, stack⟩ := s
  obtain ⟨-, hstack⟩ := hs
  intro op hop
  cases action with
  | env e => cases hop
  | master choice =>
    simp only [operations] at hop
    split at hop
    · rename_i a _ _
      obtain rfl := List.mem_singleton.mp hop
      have ha : a.Ranged := (List.forall_mem_cons.mp hstack).1
      exact ha.pass.fits
    · obtain rfl := List.mem_singleton.mp hop
      exact Honest.fits_negation (List.forall_mem_cons.mp hstack).1
    · rename_i a _ _
      obtain rfl := List.mem_singleton.mp hop
      have ha : a.Ranged := (List.forall_mem_cons.mp hstack).1
      exact ha.negated.fits
    · obtain rfl := List.mem_singleton.mp hop
      exact Honest.fits_negation (List.forall_mem_cons.mp hstack).1
    · obtain ⟨ha, hvars⟩ := (List.forall_mem_cons.mp hstack).1
      exact LoopState.fits_operations ha hvars op hop
    · cases hop

/-! ## All searches -/

omit [DecidableEq ν] in
/-- **No arithmetic on scores overflows, except for the negation of what an aborted call
returned**: for the searching functions, a call returns, and it does so without an overflow exactly
if no score that it negates is that of an aborted call; for the master of a parallel search, the
arithmetic of a step fits under the same condition, in every state that is reached. -/
theorem scores_fit_iff [Build] :
    (∀ env : SearchEnv, Evaluates env → ∀ (call : Call) (alpha beta : Int), IntWindow alpha beta →
      call.node.Sound → ∀ st : SearchState, st.Moderate → call.Fits st →
        ∀ fuel, call.levels + maxply + 2 ≤ fuel →
          ∃ p st', call.run env fuel alpha beta st = .done p st' ∧
            (call.checked Operation.fits env fuel alpha beta st = .done p st' ↔
              call.checked Operation.unaborted env fuel alpha beta st = .done p st') ∧
            (call.checked Operation.unaborted env fuel alpha beta st = .done p st' → Honest p.2)) ∧
    ∀ (n : Nat) (ν : Type) [DecidableEq ν] (cfg : Config ν) ls s,
      Runs (Under Given (Step cfg)) (create n ν) ls s →
        (∀ l ∈ ls, ∀ o ∈ l.2, o.Ranged) ∧
          ∀ action, (∀ op ∈ s.operations cfg action, op.fits = true) ↔
            ∀ op ∈ s.operations cfg action, op.unaborted = true := by
  constructor
  · intro env henv call alpha beta hw hs st hst hfits fuel hfuel
    obtain ⟨p, st', hrun⟩ := (call.returns hfuel st).2 hfits
    obtain ⟨heq, hdone⟩ := call.checked_alike henv fuel hs hfits.withinPlies hw st hst
    refine ⟨p, st', hrun, ?_, fun hu => (hdone p st' (heq.trans hu)).2.2⟩
    rw [heq]
  · intro n ν _ cfg ls s hrun
    have hranged : s.Ranged := hrun.invariant ranged_create fun _ _ _ hs hstep =>
      (Step.ranged hstep.2 hs hstep.1).1
    refine ⟨hrun.along ranged_create fun _ _ _ hs hstep => Step.ranged hstep.2 hs hstep.1, fun action => ?_⟩
    refine forall₂_congr fun op hop => ?_
    rw [hranged.fits_operations action op hop]

omit [DecidableEq ν] in
/-- Three plies from the opening position, and a slave that finishes. -/
theorem scores_fit_opening : ∃ b root, @Board.parseFen sampleBuild openingFen = .accepted b ∧
    @Node.initRoot (.ofBoard b) sampleBuild = some root ∧
    (∃ p st', @Call.run sampleBuild (@evaluating sampleBuild false) 2000 (-infty) infty (.root root 3) idle =
        .done p st' ∧
      (@Call.checked sampleBuild Operation.fits (@evaluating sampleBuild false) 2000 (-infty) infty
          (.root root 3) idle = .done p st' ↔
        @Call.checked sampleBuild Operation.unaborted (@evaluating sampleBuild false) 2000 (-infty) infty
          (.root root 3) idle = .done p st') ∧
      (@Call.checked sampleBuild Operation.unaborted (@evaluating sampleBuild false) 2000 (-infty) infty
        (.root root 3) idle = .done p st' → Honest p.2)) ∧
    ∃ ls s, Runs (Under Given (Step twoMoves)) (create 1 Nat) ls s ∧ ls.length = 5 ∧
      (∀ l ∈ ls, ∀ o ∈ l.2, o.Ranged) ∧ ∀ action, (∀ op ∈ s.operations twoMoves action, op.fits = true) ↔
        ∀ op ∈ s.operations twoMoves action, op.unaborted = true := by
  let _ := sampleBuild
  obtain ⟨b, hb, hsim⟩ := parseFen_opening
  have hsound : b.Sound := hsim.sound Rules.sane_opening Rules.materialOk_opening
  have hlegal : Rules.opening.Legal (.move 12 28 .pawn none) := by decide +kernel
  obtain ⟨root, hroot⟩ := Node.exists_initRoot hsound ⟨_, hsim.abs_eq ▸ hlegal⟩
  have htrace : (trace (guarded Given (step twoMoves)) (create 1 Nat) finished).any (fun r =>
      decide (r.1.length = 5)) = true := by decide +kernel
  obtain ⟨⟨ls, s⟩, hs, h⟩ := (Option.any_eq_true _ _).mp htrace
  have hrun := runs_under_of_trace hs
  have hfuel : (Call.root root 3).levels + maxply + 2 ≤ 2000 := by
    show 3 + 1024 + 2 ≤ 2000
    omega
  exact ⟨b, root, hb, hroot, scores_fit_iff.1 (evaluating false) (evaluates_evaluating false)
    (.root root 3) (-infty) infty ⟨by decide, by decide, by decide⟩ (Node.sound_initRoot hsound hroot) idle
      nofun ⟨rfl, by decide, rootFits_initRoot hroot⟩ 2000 hfuel,
    ls, s, hrun, of_decide_eq_true h, scores_fit_iff.2 1 Nat twoMoves ls s hrun⟩

/-- A pawn and the kings. -/
def pawnFen : String := "4k3/8/8/8/8/8/4P3/4K3 w - - 0 1"

/-- The root is searched to depth 2 after an interrupt, and a check finds an overflow. -/
def overflows [Build] (b : Board) : Bool :=
  match (Node.ofBoard b).initRoot with
  | none => false
  | some root =>
    match Call.run (evaluating true) 2000 (-infty) infty (.root root 2) idle,
      Call.checked Operation.fits (evaluating true) 2000 (-infty) infty (.root root 2) idle with
    | .done _ _, .bug => true
    | _, _ => false

omit [DecidableEq ν] in
/-- **`-INT_MIN` overflows**: the search has been interrupted before the first child of the root
looks at the flag; it returns `INT_MIN`, and the root negates it. -/
theorem aborted_negation_overflows : ∃ b, @Board.parseFen sampleBuild pawnFen = .accepted b ∧
    ∃ root, @Node.initRoot (.ofBoard b) sampleBuild = some root ∧
      (∃ p st', @Call.run sampleBuild (@evaluating sampleBuild true) 2000 (-infty) infty (.root root 2) idle =
        .done p st') ∧
      @Call.checked sampleBuild Operation.fits (@evaluating sampleBuild true) 2000 (-infty) infty
        (.root root 2) idle = .bug := by
  let _ := sampleBuild
  have hrun : (Board.parseFen pawnFen).holds overflows = true := by decide +kernel
  obtain ⟨b, hb, htest⟩ := FenResult.holds_eq_true.mp hrun
  unfold overflows at htest
  split at htest
  · cases htest
  rename_i root hroot
  split at htest
  · rename_i p st' hdone hbug
    exact ⟨b, hb, root, hroot, ⟨p, st', hdone⟩, hbug⟩
  · cases htest

end System

end HoiChess.ParallelSearch
