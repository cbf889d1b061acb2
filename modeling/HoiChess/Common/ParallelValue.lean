import HoiChess.Common.SlaveTurns

/-!
# The value that the loop returns

Slaves search with windows around the alpha of the moment they are started at.  The result of a
null window says only whether a move is better than that alpha; if alpha has been raised
meanwhile, the loop takes it for final, although the move may be better than the new alpha as
well.  As long as this does not happen, the loop returns the value of the node clamped into its
window, in whatever order the slaves finish (`LoopState.loop_value`).
-/

namespace HoiChess.ParallelSearch

open Transition Window

variable {n : Nat} {ν : Type}

/-! ## The value of a node -/

/-- The value of a node with these moves. -/
def bestOf (v : ν → Int) (c : ν) (rest : List ν) : Int :=
  rest.foldl (fun m d => max m (-v d)) (-v c)

theorem foldl_max_spec (v : ν → Int) (l : List ν) (m : Int) :
    m ≤ l.foldl (fun m d => max m (-v d)) m ∧
      (∀ d ∈ l, -v d ≤ l.foldl (fun m d => max m (-v d)) m) ∧
        (l.foldl (fun m d => max m (-v d)) m = m ∨
          ∃ d ∈ l, l.foldl (fun m d => max m (-v d)) m = -v d) := by
  induction l generalizing m with
  | nil => simp
  | cons c l ih =>
    obtain ⟨hle, hall, hsome⟩ := ih (max m (-v c))
    rw [List.foldl_cons]
    refine ⟨(le_max_left _ _).trans hle, fun d hd => ?_, ?_⟩
    · rcases List.mem_cons.mp hd with rfl | hd
      · exact (le_max_right _ _).trans hle
      · exact hall d hd
    · rcases hsome with heq | ⟨d, hd, heq⟩
      · rcases max_choice m (-v c) with hm | hm
        · exact .inl (heq.trans hm)
        · exact .inr ⟨c, List.mem_cons_self, heq.trans hm⟩
      · exact .inr ⟨d, List.mem_cons_of_mem c hd, heq⟩

/-- It is the greatest of the values of the moves. -/
theorem bestOf_spec (v : ν → Int) (c : ν) (rest : List ν) :
    (∃ d ∈ c :: rest, bestOf v c rest = -v d) ∧ ∀ d ∈ c :: rest, -v d ≤ bestOf v c rest := by
  obtain ⟨hle, hall, hsome⟩ := foldl_max_spec v rest (-v c)
  refine ⟨?_, fun d hd => ?_⟩
  · rcases hsome with heq | ⟨d, hd, heq⟩
    · exact ⟨c, List.mem_cons_self, heq⟩
    · exact ⟨d, List.mem_cons_of_mem c hd, heq⟩
  · rcases List.mem_cons.mp hd with rfl | hd
    · exact hle
    · exact hall d hd

/-! ## The result of a slave -/

def Thread.args : Thread ν → Option (Args ν)
  | .none => Option.none
  | .running args => Option.some args
  | .finished args _ => Option.some args

/-- What a slave does while the loop is open: it searches its node with a window that ends at an
alpha of the past. -/
structure Slave.Fair (v : ν → Int) (alpha beta : Int) (s : Slave ν) : Prop where
  node : ∀ args, s.thread.args = some args → s.node = some args.node
  window : ∀ args, s.thread.args = some args → -args.beta ≤ alpha ∧ -args.beta < beta ∧
    args.alpha = if s.pvsNullwin then args.beta - 1 else -beta
  score : ∀ args ret, s.thread = .finished args ret →
    ret.score = clamp args.alpha args.beta (v args.node)
  running : ∀ args, s.thread = .running args → s.stop = false

/-- What a score says about the value of a move, as far as it is looked at. -/
structure Verdict (alpha beta value : Int) (nullwin : Bool) (score : Int) : Prop where
  low : score ≤ alpha → value ≤ alpha
  inside : alpha < score → score < beta → nullwin = false → score = value
  high : beta ≤ score → score = beta ∧ beta ≤ value

/-- Unless alpha has been raised since the start of a null window search, its score can be taken
at face value. -/
theorem verdict_of {alpha beta lo hi value : Int} {nullwin : Bool} (halpha : alpha < beta)
    (hhi : -hi ≤ alpha) (hbeta : -hi < beta) (hlo : lo = if nullwin then hi - 1 else -beta)
    (htimely : nullwin = true → -hi = alpha ∨ -value ≤ alpha) :
    Verdict alpha beta (-value) nullwin (-clamp lo hi value) := by
  cases nullwin with
  | true =>
    have hlo' : lo = hi - 1 := hlo
    have htimely' := htimely rfl
    unfold clamp
    exact ⟨by omega, by simp, by omega⟩
  | false =>
    have hlo' : lo = -beta := hlo
    unfold clamp
    exact ⟨by omega, by omega, by omega⟩

/-- The slave has not been overtaken: if it searched with a null window, alpha is still the one it
was started with, or the move is not better than alpha. -/
def Slave.timely (v : ν → Int) (alpha : Int) (s : Slave ν) : Bool :=
  match s.thread with
  | .finished args _ => !s.pvsNullwin || decide (-args.beta = alpha) || decide (-v args.node ≤ alpha)
  | _ => true

namespace LoopState

/-- No slave is collected that has been overtaken. -/
def Timely (v : ν → Int) (s : LoopState n ν) (l : Turn n × List (Output n ν)) : Prop :=
  l.1 = .master → s.point = .wait →
    s.pool.readyQueue.head?.all (fun id => (s.pool.slaves id).timely v s.alpha.score) = true

instance (v : ν → Int) (s : LoopState n ν) (l : Turn n × List (Output n ν)) :
    Decidable (s.Timely v l) := inferInstanceAs (Decidable (_ = _ → _ = _ → _ = true))

/-! ## The invariant -/

section Invariant

variable (a : Args ν) (v : ν → Int) (moves : List ν)

/-- While the loop is open, alpha is the best result so far. -/
structure Best (alpha : Int) (results : List ν) : Prop where
  lower : a.alpha ≤ alpha
  upper : alpha < a.beta
  results : ∀ c ∈ results, -v c ≤ alpha
  attained : alpha = a.alpha ∨ ∃ c ∈ moves, alpha = -v c

structure Open (alpha : Int) (results : List ν) (pool : Pool n ν) : Prop extends
    Best a v moves alpha results where
  slaves : ∀ i, (pool.slaves i).Fair v alpha a.beta
  stop : pool.stop = false

/-- After a cutoff some move is as good as beta. -/
def Cut (alpha : Int) : Prop := alpha = a.beta ∧ ∃ c ∈ moves, a.beta ≤ -v c

/-- The values at each point of the loop. -/
def Sound (s : LoopState n ν) : Prop :=
  match s.point with
  | .assign => Open a v moves s.alpha.score s.results s.pool
  | .check => Open a v moves s.alpha.score s.results s.pool
  | .wait => Open a v moves s.alpha.score s.results s.pool
  | .collected id ret => Open a v moves s.alpha.score s.results s.pool ∧ intMin < ret.score ∧
    ∀ c, (s.pool.slaves id).node = some c →
      Verdict s.alpha.score a.beta (-v c) (s.pool.slaves id).pvsNullwin (-ret.score)
  | .interrupting _ cutoff => cutoff = true ∧ Cut a v moves s.alpha.score
  | .joining _ cutoff => cutoff = true ∧ Cut a v moves s.alpha.score
  | .done true => Cut a v moves s.alpha.score
  | .done false => Best a v moves s.alpha.score s.results
  | .aborted => False

end Invariant

variable {cfg : Config ν} {a : Args ν} {v : ν → Int} {moves : List ν} {s t : LoopState n ν}
  {outputs : List (Output n ν)}

theorem sound_assign (hpoint : s.point = .assign) (h : Open a v moves s.alpha.score s.results s.pool) :
    s.Sound a v moves := by
  unfold Sound
  rw [hpoint]
  exact h

theorem open_of (h : s.Sound a v moves)
    (hpoint : s.point = .assign ∨ s.point = .check ∨ s.point = .wait) :
    Open a v moves s.alpha.score s.results s.pool := by
  unfold Sound at h
  rcases hpoint with hpoint | hpoint | hpoint <;> rwa [hpoint] at h

/-- The node of a busy slave is one of the moves. -/
theorem mem_moves (h : s.Balance moves) {id : Fin n} {c : ν} (hfree : (s.pool.slaves id).free = false)
    (hnode : (s.pool.slaves id).node = some c) : c ∈ moves := by
  have hload : c ∈ (s.pool.slaves id).load := by
    unfold Slave.load
    rw [hfree, hnode]
    exact Multiset.mem_singleton_self c
  have hpool : c ∈ s.pool.load := Multiset.mem_sum.mpr ⟨id, Finset.mem_univ id, hload⟩
  refine Multiset.mem_coe.mp ?_
  rw [← (show _ = (moves : Multiset ν) from h)]
  exact Multiset.mem_add.mpr (.inl (Multiset.mem_add.mpr (.inr hpool)))

/-- A slave that is started is fair. -/
theorem fair_started {slave : Slave ν} (hthread : slave.thread = .none) {alpha beta : Int} {args : Args ν}
    {nullwin : Bool} (hbeta : -args.beta ≤ alpha) (hlt : -args.beta < beta)
    (halpha : args.alpha = if nullwin then args.beta - 1 else -beta) (free : Bool)
    (nodealloc : Option ν) :
    Slave.Fair v alpha beta { slave.startThread args with
      free := free, nodealloc := nodealloc, node := some args.node, pvsNullwin := nullwin } := by
  rw [startThread_eq hthread]
  refine ⟨fun args' h => ?_, fun args' h => ?_, fun args' ret h => ?_, fun args' h => rfl⟩
  · obtain rfl := Option.some.inj h
    rfl
  · obtain rfl := Option.some.inj h
    exact ⟨hbeta, hlt, halpha⟩
  · cases h

theorem fair_idle {slave : Slave ν} (hthread : slave.thread = .none) (alpha beta : Int) :
    slave.Fair v alpha beta := by
  refine ⟨fun args h => ?_, fun args h => ?_, fun args ret h => ?_, fun args h => ?_⟩ <;>
    rw [hthread] at h <;> cases h

theorem Fair.mono {slave : Slave ν} {alpha alpha' beta : Int} (h : slave.Fair v alpha beta)
    (hle : alpha ≤ alpha') : slave.Fair v alpha' beta :=
  ⟨h.node, fun args hargs => ⟨(h.window args hargs).1.trans hle, (h.window args hargs).2⟩, h.score,
    h.running⟩

/-- One slave changes while the loop is open. -/
theorem Open.change {alpha : Int} {results : List ν} {pool : Pool n ν}
    (h : Open a v moves alpha results pool) {id : Fin n} {slave : Slave ν}
    (hslave : slave.Fair v alpha a.beta) :
    Open a v moves alpha results (pool.setSlave id slave) := by
  refine ⟨h.toBest, ?_, h.stop⟩
  intro i
  by_cases hi : i = id
  · subst hi
    rw [Pool.setSlave_self]
    exact hslave
  · rw [Pool.setSlave_of_ne _ _ hi]
    exact h.slaves i

/-- A result at beta is a cutoff. -/
theorem Best.cut {alpha score : Int} {results : List ν} {c : ν} {nullwin : Bool}
    (h : Best a v moves alpha results) (hv : Verdict alpha a.beta (-v c) nullwin score) (hc : c ∈ moves)
    (hle : a.beta ≤ score) : Cut a v moves (if score > alpha then score else alpha) := by
  obtain ⟨heq, hvalue⟩ := hv.high hle
  have hupper := h.upper
  rw [if_pos (by omega)]
  exact ⟨heq, c, hc, hvalue⟩

/-- A result below beta may raise alpha. -/
theorem Best.raise {alpha score : Int} {results : List ν} {c : ν} {nullwin : Bool}
    (h : Best a v moves alpha results) (hv : Verdict alpha a.beta (-v c) nullwin score) (hc : c ∈ moves)
    (hlt : score < a.beta) (hnull : nullwin = true → score ≤ alpha) :
    Best a v moves (if score > alpha then score else alpha) (results ++ [c]) := by
  by_cases hscore : score > alpha
  · have hfull : nullwin = false := Bool.eq_false_iff.mpr fun hn => absurd (hnull hn) (not_le.mpr hscore)
    have heq := hv.inside hscore hlt hfull
    rw [if_pos hscore]
    refine ⟨h.lower.trans hscore.le, hlt, fun d hd => ?_, .inr ⟨c, hc, heq⟩⟩
    rcases List.mem_append.mp hd with hd | hd
    · exact (h.results d hd).trans hscore.le
    · obtain rfl := List.mem_singleton.mp hd
      exact heq.ge
  · rw [if_neg hscore]
    refine ⟨h.lower, h.upper, fun d hd => ?_, h.attained⟩
    rcases List.mem_append.mp hd with hd | hd
    · exact h.results d hd
    · obtain rfl := List.mem_singleton.mp hd
      exact hv.low (not_lt.mp hscore)

/-- The arguments of a slave fit its flag. -/
theorem slaveArgs_spec (cfg : Config ν) (a : Args ν) (s : LoopState n ν) (c : ν) :
    (s.slaveArgs cfg a c).node = c ∧ (s.slaveArgs cfg a c).beta = -s.alpha.score ∧
      (s.slaveArgs cfg a c).alpha =
        if s.nullwin cfg a then (s.slaveArgs cfg a c).beta - 1 else -a.beta := by
  unfold slaveArgs
  cases s.nullwin cfg a <;> exact ⟨rfl, rfl, rfl⟩

/-- What is collected from a slave that has not been overtaken. -/
theorem collected_sound (h : Open a v moves s.alpha.score s.results s.pool)
    (hbeta : intMin < -a.beta) {id : Fin n} {args : Args ν}
    {ret : Ret} (hthread : (s.pool.slaves id).thread = .finished args ret)
    (htimely : (s.pool.slaves id).timely v s.alpha.score = true) :
    intMin < ret.score ∧ ∀ c, (s.pool.slaves id).node = some c →
      Verdict s.alpha.score a.beta (-v c) (s.pool.slaves id).pvsNullwin (-ret.score) := by
  have hfair := h.slaves id
  have hargs : (s.pool.slaves id).thread.args = some args := by
    rw [hthread]
    rfl
  obtain ⟨hle, hlt, halpha⟩ := hfair.window args hargs
  have hscore := hfair.score args ret hthread
  refine ⟨?_, fun c hc => ?_⟩
  · have hlow : args.alpha ≤ clamp args.alpha args.beta (v args.node) := le_clamp
    rw [hscore]
    split at halpha <;> omega
  · obtain rfl := Option.some.inj ((hfair.node args hargs).symm.trans hc)
    rw [hscore]
    refine verdict_of h.upper hle hlt halpha fun hnull => ?_
    simpa [Slave.timely, hthread, hnull] using htimely

theorem sound_start (hs : s.Sound a v moves) (hfits : s.point.Fits s.pool) {id : Fin n} {c : ν}
    {rest : List ν} (hpoint : s.point = .assign) (hid : s.pool.findFreeSlave = some id) :
    (s.start cfg a id c rest).Sound a v moves := by
  have hopen := open_of hs (.inl hpoint)
  have hok : s.pool.Ok true 0 none := fits_of hfits hpoint
  have hthread := (hok.idle_of_free (Pool.findFreeSlave_eq_some hid)).2.1
  obtain ⟨hnode, hb, ha⟩ := slaveArgs_spec cfg a s c
  have hslave : Slave.Fair v s.alpha.score a.beta
      { (s.pool.slaves id).startThread (s.slaveArgs cfg a c) with
        free := false, nodealloc := some c, node := some (s.slaveArgs cfg a c).node
        pvsNullwin := s.nullwin cfg a } := by
    have hupper := hopen.upper
    refine fair_started hthread ?_ ?_ ha _ _ <;> rw [hb] <;> omega
  rw [hnode] at hslave
  exact sound_assign hpoint (hopen.change hslave)

theorem sound_collect (hs : s.Sound a v moves) (hbeta : intMin < -a.beta)
    (htimely : s.point = .wait → s.pool.readyQueue.head?.all
      (fun id => (s.pool.slaves id).timely v s.alpha.score) = true)
    {id : Fin n} {queue : List (Fin n)} {ret : Ret} {pool : Pool n ν} (hpoint : s.point = .wait)
    (hqueue : s.pool.readyQueue = id :: queue)
    (hjoin : Pool.joinSlave { s.pool with readyQueue := queue } id = some (ret, pool)) :
    ({ s with pool := pool, point := .collected id ret } : LoopState n ν).Sound a v moves := by
  have hopen := open_of hs (.inr (.inr hpoint))
  obtain ⟨args, hthread, -⟩ := Pool.joinSlave_eq_some.mp hjoin
  obtain ⟨-, hstop, hothers, _, hself⟩ := Pool.joinSlave_slaves hjoin
  have hlate := htimely hpoint
  rw [hqueue] at hlate
  obtain ⟨hmin, hverdict⟩ := collected_sound hopen hbeta hthread hlate
  refine ⟨⟨hopen.toBest, fun i => ?_, hstop.trans hopen.stop⟩, hmin, fun c hc => ?_⟩
  · by_cases hi : i = id
    · subst hi
      exact fair_idle (by rw [hself]) _ _
    · show (pool.slaves i).Fair v _ _
      rw [hothers i hi]
      exact hopen.slaves i
  · have hc' : (pool.slaves id).node = some c := hc
    show Verdict _ _ _ (pool.slaves id).pvsNullwin _
    rw [hself] at hc' ⊢
    exact hverdict c hc'

theorem sound_again (hs : s.Sound a v moves) (hfits : s.point.Fits s.pool) {id : Fin n} {ret : Ret}
    {c : ν} (hpoint : s.point = .collected id ret) (hnode : (s.pool.slaves id).node = some c) :
    (s.again a id c).Sound a v moves := by
  have hok : s.pool.Ok true 0 (some id) := fits_of hfits hpoint
  unfold Sound at hs
  rw [hpoint] at hs
  obtain ⟨hopen, -, -⟩ := hs
  have hupper := hopen.upper
  have hslave : Slave.Fair v s.alpha.score a.beta
      { (s.pool.slaves id).startThread (s.againArgs a c) with
        free := (s.pool.slaves id).free, nodealloc := (s.pool.slaves id).nodealloc, node := some c
        pvsNullwin := false } := by
    refine fair_started hok.taken_of.2 ?_ ?_ rfl _ _
    · show - -s.alpha.score ≤ _
      omega
    · show - -s.alpha.score < _
      omega
  rw [startThread_eq hok.taken_of.2, ← hnode] at hslave
  unfold Sound LoopState.again
  rw [startThread_eq hok.taken_of.2]
  exact hopen.change hslave

theorem sound_accept (hs : s.Sound a v moves) (hfits : s.point.Fits s.pool) (hmoves : s.Accounted moves)
    {id : Fin n} {ret : Ret} {c : ν} (hpoint : s.point = .collected id ret)
    (hnode : (s.pool.slaves id).node = some c) (hfinal : s.failed a id ret.negate.score = false) :
    (s.accept a id c ret.negate).Sound a v moves := by
  have hok : s.pool.Ok true 0 (some id) := fits_of hfits hpoint
  have hbal := balance_of hmoves (.inr (.inr (.inr ⟨_, _, hpoint⟩)))
  obtain ⟨⟨d, hholds⟩, hthread⟩ := hok.taken_of
  have hmem := mem_moves hbal hholds.1 hnode
  unfold Sound at hs
  rw [hpoint] at hs
  obtain ⟨hopen, hmin, hverdict⟩ := hs
  have hv := hverdict c hnode
  have hscore : ret.negate.score = -ret.score := if_neg (by omega)
  rw [← hscore] at hv
  have halpha : (s.accept a id c ret.negate).alpha.score =
      if ret.negate.score > s.alpha.score then ret.negate.score else s.alpha.score := by
    show (if ret.negate.score > s.alpha.score then ret.negate else s.alpha).score = _
    split <;> rfl
  have hfree : Slave.Fair v (s.accept a id c ret.negate).alpha.score a.beta
      { s.pool.slaves id with nodealloc := none, free := true } := by
    refine fair_idle ?_ _ _
    exact hthread
  by_cases hcut : ret.negate.score ≥ a.beta
  · have hpoint' : (s.accept a id c ret.negate).point = .interrupting 0 true := if_pos hcut
    unfold Sound
    rw [hpoint', halpha]
    exact ⟨rfl, hopen.cut hv hmem hcut⟩
  · have hpoint' : (s.accept a id c ret.negate).point = .assign := if_neg hcut
    have hnull : (s.pool.slaves id).pvsNullwin = true → ret.negate.score ≤ s.alpha.score := by
      intro hn
      by_contra hlt
      have hlt' : ret.negate.score < a.beta ∧ s.alpha.score < ret.negate.score :=
        ⟨not_le.mp hcut, not_le.mp hlt⟩
      simp [failed, hn, hlt'] at hfinal
    have hbest := hopen.raise hv hmem (not_le.mp hcut) hnull
    rw [← halpha] at hbest
    have hle : s.alpha.score ≤ (s.accept a id c ret.negate).alpha.score := by
      rw [halpha]
      split <;> omega
    have hraised : Open a v moves (s.accept a id c ret.negate).alpha.score (s.results ++ [c]) s.pool :=
      ⟨hbest, fun i => Fair.mono (hopen.slaves i) hle, hopen.stop⟩
    exact sound_assign hpoint' (hraised.change hfree)

/-- **A step of the loop keeps the values**, if it collects no slave that has been overtaken. -/
theorem Steps.sound (h : s.Steps cfg a false t outputs) (hs : s.Sound a v moves)
    (hfits : s.point.Fits s.pool) (hmoves : s.Accounted moves) (hbeta : intMin < -a.beta)
    (htimely : s.point = .wait →
      s.pool.readyQueue.head?.all (fun id => (s.pool.slaves id).timely v s.alpha.score) = true) :
    t.Sound a v moves := by
  cases h with
  | start hpoint _ hid => exact sound_start hs hfits hpoint hid
  | complete hpoint hnone hfree => exact (open_of hs (.inl hpoint)).toBest
  | busy hpoint hnone hbusy =>
    have hopen := open_of hs (.inl hpoint)
    exact hopen
  | stop hpoint hstop =>
    have hopen := open_of hs (.inr (.inl hpoint))
    have hstop' : (s.pool.stop || false) = true := hstop
    rw [hopen.stop] at hstop'
    cases hstop'
  | goOn hpoint hstop =>
    have hopen := open_of hs (.inr (.inl hpoint))
    exact ⟨hopen.toBest, hopen.slaves, hstop⟩
  | collect hpoint hqueue hjoin => exact sound_collect hs hbeta htimely hpoint hqueue hjoin
  | again hpoint hnode _ => exact sound_again hs hfits hpoint hnode
  | accept hpoint hnode hfinal => exact sound_accept hs hfits hmoves hpoint hnode hfinal
  | @skip i cutoff hpoint hi hfree =>
    unfold Sound at hs
    rw [hpoint] at hs
    exact hs
  | @interrupt i cutoff hpoint hi hbusy =>
    unfold Sound at hs
    rw [hpoint] at hs
    exact hs
  | @clear i cutoff hpoint hi =>
    unfold Sound at hs
    rw [hpoint] at hs
    obtain ⟨rfl, hcut⟩ := hs
    exact hcut
  | @join i cutoff ret pool hpoint hjoin =>
    unfold Sound at hs
    rw [hpoint] at hs
    exact hs

/-- **The return of a slave keeps them.** -/
theorem slaveReady_sound {id : Fin n} {args : Args ν} {ret : Ret} (hs : s.Sound a v moves)
    (hrun : (s.pool.slaves id).thread = .running args)
    (hret : ret = trueRet v args ∨ (s.pool.slaves id).stop = true) :
    LoopState.Sound a v moves { s with pool := s.pool.slaveReady id args ret } := by
  have hopen : Open a v moves s.alpha.score s.results s.pool →
      Open a v moves s.alpha.score s.results (s.pool.slaveReady id args ret) := by
    intro h
    have hfair := h.slaves id
    have hargs : (s.pool.slaves id).thread.args = some args := by
      rw [hrun]
      rfl
    have hscore : ret = trueRet v args := by
      refine hret.resolve_right fun hstop => ?_
      cases (hfair.running args hrun).symm.trans hstop
    have hslave : Slave.Fair v s.alpha.score a.beta
        { s.pool.slaves id with thread := .finished args ret } := by
      refine ⟨fun args' h => ?_, fun args' h => ?_, fun args' ret' h => ?_, fun args' h => ?_⟩
      · obtain rfl := Option.some.inj h
        exact hfair.node args hargs
      · obtain rfl := Option.some.inj h
        exact hfair.window args hargs
      · obtain ⟨rfl, rfl⟩ := Thread.finished.inj h
        rw [hscore]
        rfl
      · cases h
    exact ⟨h.toBest, (h.change hslave).slaves, h.stop⟩
  have hunfold := hs
  unfold Sound at hunfold ⊢
  cases hpoint : s.point with
  | assign =>
    rw [hpoint] at hunfold
    exact hopen hunfold
  | check =>
    rw [hpoint] at hunfold
    exact hopen hunfold
  | wait =>
    rw [hpoint] at hunfold
    exact hopen hunfold
  | collected i ret' =>
    rw [hpoint] at hunfold
    obtain ⟨h, hmin, hverdict⟩ := hunfold
    refine ⟨hopen h, hmin, ?_⟩
    by_cases hi : i = id
    · subst hi
      rw [Pool.slaveReady_self]
      exact hverdict
    · rw [Pool.slaveReady_of_ne _ _ _ hi]
      exact hverdict
  | interrupting i cutoff =>
    rw [hpoint] at hunfold
    exact hunfold
  | joining i cutoff =>
    rw [hpoint] at hunfold
    exact hunfold
  | done cutoff =>
    rw [hpoint] at hunfold
    cases cutoff with
    | true => exact hunfold
    | false => exact hunfold
  | aborted =>
    rw [hpoint] at hunfold
    exact hunfold

/-! ## The value -/

/-- The loop after a search of the first move that is true to `v`. -/
def afterFirst (a : Args ν) (v : ν → Int) (pool : Pool n ν) (c : ν) (rest : List ν) : LoopState n ν :=
  first a pool c rest (trueRet v (childArgs a c (-a.beta) (-a.alpha))).negate

theorem afterFirst_sound {pool : Pool n ν} {c : ν} {rest : List ν} (hab : a.alpha < a.beta)
    (hbeta : intMin < -a.beta) (hquiet : pool.Quiet) (hstop : pool.stop = false) :
    (afterFirst a v pool c rest).Sound a v (c :: rest) := by
  unfold afterFirst
  have hlow : -a.beta ≤ clamp (-a.beta) (-a.alpha) (v c) := le_clamp
  have hscore : (trueRet v (childArgs a c (-a.beta) (-a.alpha))).negate.score =
      -clamp (-a.beta) (-a.alpha) (v c) := if_neg (ne_of_gt (lt_of_lt_of_le hbeta hlow))
  generalize (trueRet v (childArgs a c (-a.beta) (-a.alpha))).negate = score at hscore
  have hverdict : Verdict a.alpha a.beta (-v c) false score.score := by
    rw [hscore]
    exact verdict_of hab (by omega) (by omega) rfl (by simp)
  have hbest : Best a v (c :: rest) a.alpha [] := ⟨le_rfl, hab, by simp, .inl rfl⟩
  have halpha : (first a pool c rest score).alpha.score =
      if score.score > a.alpha then score.score else a.alpha := by
    show (if score.score > a.alpha then score else _).score = _
    split <;> rfl
  by_cases hcut : score.score ≥ a.beta
  · have hpoint : (first a pool c rest score).point = .done true := if_pos hcut
    unfold Sound
    rw [hpoint, halpha]
    exact hbest.cut hverdict List.mem_cons_self hcut
  · have hpoint : (first a pool c rest score).point = .assign := if_neg hcut
    refine sound_assign hpoint ⟨?_, fun i => fair_idle (hquiet.1 i).2.1 _ _, hstop⟩
    rw [halpha]
    exact hbest.raise hverdict List.mem_cons_self (not_le.mp hcut) (by simp)

/-- The alpha that the loop is left with. -/
theorem Sound.value {c : ν} {rest : List ν} (hab : a.alpha < a.beta) (hn : 0 < n)
    (hs : s.Sound a v (c :: rest)) (hmoves : s.Accounted (c :: rest)) {cutoff : Bool}
    (hpoint : s.point = .done cutoff) : s.alpha.score = clamp a.alpha a.beta (bestOf v c rest) := by
  obtain ⟨⟨best, hbest, hvalue⟩, hall⟩ := bestOf_spec v c rest
  unfold Sound at hs
  unfold Accounted at hmoves
  rw [hpoint] at hs hmoves
  cases cutoff with
  | true =>
    obtain ⟨heq, d, hd, hle⟩ := hs
    rw [heq, clamp_of_ge (hle.trans (hall d hd)) hab.le]
  | false =>
    have hle : bestOf v c rest ≤ s.alpha.score := by
      rw [hvalue]
      exact hs.results best ((hmoves hn).mem_iff.mpr hbest)
    rcases hs.attained with heq | ⟨d, hd, heq⟩
    · rw [heq] at hle ⊢
      exact (clamp_of_le hle hab.le).symm
    · have hge := hall d hd
      have heq' : s.alpha.score = bestOf v c rest := le_antisymm (heq.le.trans hge) hle
      rw [← heq']
      exact (clamp_of_mem hs.lower hs.upper.le).symm

theorem turn_sound {turn : Turn n} (hs : s.Sound a v moves) (horder : s.InOrder)
    (hmoves : s.Accounted moves) (hbeta : intMin < -a.beta) (htimely : s.Timely v (turn, outputs))
    (h : s.turn cfg a v turn = some (t, outputs)) : t.Sound a v moves ∧ t.Accounted moves := by
  obtain ⟨rfl, hstep⟩ | ⟨id, args, ret, hrun, hret, rfl, -⟩ := turn_cases h
  · exact ⟨hstep.sound hs horder.fits hmoves hbeta (htimely rfl), hstep.accounted horder.fits hmoves⟩
  · refine ⟨slaveReady_sound hs hrun hret, ?_⟩
    unfold Accounted Balance at hmoves ⊢
    rw [Pool.slaveReady_load]
    exact hmoves

theorem afterFirst_inOrder {pool : Pool n ν} (hquiet : pool.Quiet) (c : ν) (rest : List ν) :
    (afterFirst a v pool c rest).InOrder ∧ (afterFirst a v pool c rest).Accounted (c :: rest) := by
  obtain ⟨hfits, hmoves⟩ := first_fits (a := a) hquiet
    (trueRet v (childArgs a c (-a.beta) (-a.alpha))).negate (List.Perm.refl (c :: rest))
  refine ⟨⟨hfits, fun hpoint => ?_⟩, hmoves⟩
  simp only [afterFirst, first] at hpoint
  split at hpoint <;> simp at hpoint

/-- **The loop returns the value of the node clamped into its window**, in whatever order the
slaves finish, as long as none is collected that has been overtaken; and it returns. -/
theorem loop_value (hfailsoft : cfg.failsoft = false) (hn : 0 < n) (hab : a.alpha < a.beta)
    (hbeta : intMin < -a.beta) {pool : Pool n ν} (hquiet : pool.Quiet) (hstop : pool.stop = false)
    {c : ν} {rest : List ν} {ls : List (Turn n × List (Output n ν))}
    (hrun : Runs (Under (Timely v) (Takes cfg a v)) (afterFirst a v pool c rest) ls s) :
    (∀ cutoff, s.point = .done cutoff →
      (if cfg.failsoft then s.bestscore else s.alpha).score =
        clamp a.alpha a.beta (bestOf v c rest)) ∧
    ((∀ cutoff, s.point ≠ .done cutoff) →
      ∃ turn t outputs, s.turn cfg a v turn = some (t, outputs)) ∧
    ls.length ≤ (afterFirst a v pool c rest).rank := by
  obtain ⟨hstart, haccount⟩ : (afterFirst a v pool c rest).InOrder ∧
      (afterFirst a v pool c rest).Accounted (c :: rest) := afterFirst_inOrder hquiet c rest
  obtain ⟨horder, hmoves, hsound⟩ : s.InOrder ∧ s.Accounted (c :: rest) ∧ s.Sound a v (c :: rest) := by
    refine hrun.invariant (P := fun s => s.InOrder ∧ s.Accounted (c :: rest) ∧ s.Sound a v (c :: rest))
      ⟨hstart, haccount, afterFirst_sound hab hbeta hquiet hstop⟩ fun s l t hs hstep => ?_
    obtain ⟨horder, hmoves, hsound⟩ := hs
    obtain ⟨hsound', hmoves'⟩ := turn_sound hsound horder hmoves hbeta hstep.1 hstep.2
    exact ⟨(horder.turn hstep.2).1, hmoves', hsound'⟩
  refine ⟨fun cutoff hpoint => ?_, fun hdone => ?_, ?_⟩
  · rw [hfailsoft]
    exact hsound.value hab hn hmoves hpoint
  · refine exists_turn cfg a v horder hdone fun haborted => ?_
    unfold Sound at hsound
    rw [haborted] at hsound
    exact hsound
  · have hle := (length_le_rank hstart (hrun.mono fun _ _ _ h => h.2)).2
    omega

/-! ## Two slaves and three moves -/

/-- The moves to 0, 1 and 2 are worth nothing, 5 and 9, and all slaves use null windows. -/
def threeMoves : Config Nat := ⟨false, 1, 4, 1, fun _ => [0, 1, 2]⟩

def threeArgs : Args Nat := ⟨3, 0, 5, -10, 10⟩

def threeValues : Nat → Int
  | 1 => -5
  | 2 => -9
  | _ => 0

def threeStart : LoopState 2 Nat := afterFirst threeArgs threeValues (.create 2) 0 [1, 2]

/-- The move that is worth 5 is searched again before the other search returns. -/
def overtaken : List (Turn 2) :=
  [.master, .master, .master, .master, .finish 0, .master, .master, .master, .master, .finish 0,
    .master, .master, .master, .master, .finish 1, .master, .master, .master]

/-- The move that is worth 9 is searched again first. -/
def inTime : List (Turn 2) :=
  [.master, .master, .master, .master, .finish 1, .master, .master, .master, .master, .finish 1,
    .master, .master, .master, .master, .finish 0, .master, .master, .master]

/-- **A move that is worth 9 is discarded for one that is worth 5.** -/
theorem loop_discards : bestOf threeValues 0 [1, 2] = 9 ∧
    ∃ ls s, Runs (Takes threeMoves threeArgs threeValues) threeStart ls s ∧
      s.point = .done false ∧ s.alpha.score = 5 := by
  have htrace : (trace (turn threeMoves threeArgs threeValues) threeStart overtaken).any (fun r =>
      decide (r.2.point = .done false) && decide (r.2.alpha.score = 5)) = true := by decide +kernel
  obtain ⟨⟨ls, s⟩, hs, h⟩ := (Option.any_eq_true _ _).mp htrace
  rw [Bool.and_eq_true, decide_eq_true_eq, decide_eq_true_eq] at h
  exact ⟨by decide, ls, s, runs_of_trace hs, h⟩

theorem loop_value_inTime : ∃ (ls : List (Turn 2 × List (Output 2 Nat))) (s : LoopState 2 Nat),
    s.point = .done false ∧
      (if threeMoves.failsoft then s.bestscore else s.alpha).score =
        clamp (-10) 10 (bestOf threeValues 0 [1, 2]) ∧ ls.length ≤ threeStart.rank := by
  have htrace : (trace (guarded (Timely threeValues) (turn threeMoves threeArgs threeValues))
      threeStart inTime).any (fun r => decide (r.2.point = .done false)) = true := by decide +kernel
  obtain ⟨⟨ls, s⟩, hs, h⟩ := (Option.any_eq_true _ _).mp htrace
  have hpoint := of_decide_eq_true h
  obtain ⟨hvalue, -, hlength⟩ := loop_value rfl (by decide) (by decide) (by decide)
    System.create_quiet rfl (runs_under_of_trace hs)
  exact ⟨ls, s, hpoint, hvalue false hpoint, hlength⟩

end LoopState

end HoiChess.ParallelSearch
