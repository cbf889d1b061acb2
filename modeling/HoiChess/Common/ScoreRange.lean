import HoiChess.Lib.Agreement
import HoiChess.Common.EvalRange
import HoiChess.Common.Mateless

/-!
# The arithmetic of the scores

A score is an `int`.  Calls hand windows down, with bounds `-beta`, `-alpha`, `-alpha - 1` and
`-beta + 1`, and negate what comes back before they look at the stop flag.  `checkedSearch` and its
companions are the searching functions with a test before and after each search of a child.  A
window fits at every depth, and so does the negative of what a call returns in the end; a call that
has been aborted returns `INT_MIN`, whose negation overflows (`Call.checked_alike`).  What is said of
the parts of a call does not depend on who searches the children.
-/

namespace HoiChess

open Chess Exec

instance (x : Int) : Decidable (FitsInt x) := inferInstanceAs (Decidable (_ ∧ _))

/-- The scores in the table are those that `store_hashtable` writes: none is beyond a mate. -/
def HashTable.Moderate (t : HashTable) : Prop :=
  ∀ i, (t.table i).type ≠ .none → -mate ≤ (t.table i).score ∧ (t.table i).score ≤ mate

def SearchState.Moderate (st : SearchState) : Prop := ∀ t, st.hashtable = some t → t.Moderate

namespace Search

/-- An `int` other than `INT_MIN`. -/
def Negatable (score : Int) : Prop := intMin < score ∧ score < -intMin

instance (score : Int) : Decidable (Negatable score) := inferInstanceAs (Decidable (_ ∧ _))

/-- A call returns such a score, or `INT_MIN` after a stop. -/
structure Honest (r : Ret) : Prop where
  aborted : r.aborted = true → r.score = intMin
  finished : r.aborted = false → Negatable r.score

instance (r : Ret) : Decidable (Honest r) :=
  decidable_of_iff ((r.aborted = true → r.score = intMin) ∧ (r.aborted = false → Negatable r.score))
    ⟨fun h => ⟨h.1, h.2⟩, fun h => ⟨h.1, h.2⟩⟩

instance (alpha beta : Int) : Decidable (IntWindow alpha beta) :=
  decidable_of_iff (alpha < beta ∧ intMin < alpha ∧ beta < -intMin)
    ⟨fun h => ⟨h.1, h.2.1, h.2.2⟩, fun h => ⟨h.1, h.2, h.3⟩⟩

/-- The arithmetic on scores.
* `window`: the bounds for a child; what is computed on the way to one of them, as `-alpha` for
  `-alpha - 1`, is the other one
* `negation`: of what a child returns
* `mate`: `-INFTY + ply` -/
inductive Operation where
  | window (alpha beta : Int)
  | negation (ret : Ret)
  | mate (ply : Nat)

namespace Operation

/-- It does not overflow. -/
def fits : Operation → Bool
  | window alpha beta => decide (FitsInt alpha ∧ FitsInt beta)
  | negation ret => decide (FitsInt (-ret.score))
  | mate ply => decide (FitsInt (-infty + ply))

/-- It does not negate what an aborted call returned. -/
def unaborted : Operation → Bool
  | negation ret => !ret.aborted
  | window _ _ | mate _ => true

end Operation

/-! ## The functions with their checks -/

section Checked

variable [Build] (check : Operation → Bool) (env : SearchEnv)

/-- The search of a child by a parent that negates the score. -/
def negating (rec : Node → Int → Int → SearchM (Node × Ret)) (child : Node) (alpha beta : Int) :
    SearchM (Node × Ret) := do
  require (check (.window alpha beta))
  let (child, r) ← rec child alpha beta
  require (check (.negation r))
  pure (child, r)

/-- `quiescence_search` -/
def checkedQuiescenceSearch : Nat → Node → Nat → Int → Int → SearchM (Node × Ret)
  | 0, _, _, _, _ => outOfFuel
  | fuel + 1, node, ply, alpha, beta =>
    returning .quiesce alpha beta do
      require (check (.mate ply))
      quiesceBody env
        (fun child ply' => negating check (fun child => checkedQuiescenceSearch fuel child ply') child)
        node ply alpha beta

/-- `search` -/
def checkedSearch : Nat → Node → Nat → Int → Int → Int → SearchM (Node × Ret)
  | 0, _, _, _, _, _ => outOfFuel
  | fuel + 1, node, ply, depth, alpha, beta =>
    returning .search alpha beta do
      require (check (.mate ply))
      searchBody env (checkedQuiescenceSearch check env fuel)
        (fun child ply' depth' =>
          -- internal iterative deepening stays at its ply and has no use for the score
          if ply' = ply then checkedSearch fuel child ply' depth'
          else negating check (fun child => checkedSearch fuel child ply' depth') child)
        node ply depth alpha beta

/-- `search_root` -/
def checkedSearchRoot (fuel : Nat) (node : Node) (depth alpha beta : Int) : SearchM (Node × Ret) :=
  returning .root alpha beta do
    let node ← start env node
    let (ls, aborted) ← moveLoop
      (visitRoot env (negating check fun child => checkedSearch check env fuel child 1 (depth - 1))
        alpha beta) loopFuel
      { node := node, alpha := alpha, bestscore := -infty, moves := 0, first := true }
    if aborted then pure (ls.node, .abort)
    else do
      addHistory ls.node
      pure (ls.node, ⟨if env.failsoft then ls.bestscore else ls.alpha, false⟩)

variable (fuel : Nat) (alpha beta : Int)

def Call.checked : Call → SearchM (Node × Ret)
  | .root node depth => checkedSearchRoot check env fuel node depth alpha beta
  | .search node ply depth => checkedSearch check env fuel node ply depth alpha beta
  | .quiesce node ply => checkedQuiescenceSearch check env fuel node ply alpha beta

end Checked

section Unchecked

variable [Build] (env : SearchEnv)

omit [Build] in
theorem negating_true (rec : Node → Int → Int → SearchM (Node × Ret)) :
    negating (fun _ => true) rec = rec := by
  funext child alpha beta
  exact bind_pure_self _

/-- **Nothing but the checks is new.** -/
theorem checkedQuiescenceSearch_true (fuel : Nat) :
    checkedQuiescenceSearch (fun _ => true) env fuel = quiescenceSearch env fuel := by
  induction fuel with
  | zero => rfl
  | succ fuel ih =>
    have hrec : (fun child ply' => negating (fun _ => true)
        (fun child => checkedQuiescenceSearch (fun _ => true) env fuel child ply') child) =
          quiescenceSearch env fuel := by
      funext child ply'
      rw [negating_true, ih]
    funext node ply alpha beta
    unfold checkedQuiescenceSearch quiescenceSearch
    rw [require_true_bind, hrec]

theorem checkedSearch_true (fuel : Nat) : checkedSearch (fun _ => true) env fuel = search env fuel := by
  induction fuel with
  | zero => rfl
  | succ fuel ih =>
    funext node ply depth alpha beta
    have hrec : (fun child ply' depth' =>
        if ply' = ply then checkedSearch (fun _ => true) env fuel child ply' depth'
        else negating (fun _ => true)
          (fun child => checkedSearch (fun _ => true) env fuel child ply' depth') child) =
        search env fuel := by
      funext child ply' depth'
      rw [negating_true, ite_self, ih]
    unfold checkedSearch search
    rw [require_true_bind, hrec, checkedQuiescenceSearch_true]

theorem Call.checked_true (call : Call) (fuel : Nat) (alpha beta : Int) :
    call.checked (fun _ => true) env fuel alpha beta = call.run env fuel alpha beta := by
  cases call with
  | root node depth =>
    show checkedSearchRoot _ env fuel node depth alpha beta = searchRoot env fuel node depth alpha beta
    unfold checkedSearchRoot searchRoot
    rw [negating_true, checkedSearch_true]
  | search node ply depth =>
    show checkedSearch _ env fuel node ply depth alpha beta = _
    rw [checkedSearch_true]
    rfl
  | quiesce node ply =>
    show checkedQuiescenceSearch _ env fuel node ply alpha beta = _
    rw [checkedQuiescenceSearch_true]
    rfl

end Unchecked

/-! ## Scores that can be negated -/

section Scores

variable {alpha beta score : Int} {r : Ret}

theorem negatable_of_abs_lt (h : |score| < mate) : Negatable score := by
  have hmate : mate = 90000 := rfl
  have hmin : intMin = -2147483648 := rfl
  obtain ⟨h1, h2⟩ := abs_lt.mp h
  exact ⟨by omega, by omega⟩

theorem negatable_of_mem (hw : IntWindow alpha beta) (h : alpha ≤ score ∧ score ≤ beta) :
    Negatable score :=
  ⟨lt_of_lt_of_le hw.intMin_lt h.1, lt_of_le_of_lt h.2 hw.lt_neg_intMin⟩

theorem negatable_mateScore {ply : Nat} (h : ply < maxply) : Negatable (-infty + ply) := by
  have hply : maxply = 1024 := rfl
  have hinfty : infty = 100000 := rfl
  have hmin : intMin = -2147483648 := rfl
  exact ⟨by omega, by omega⟩

theorem negatable_neg_infty : Negatable (-infty) := ⟨by decide, by decide⟩

theorem negatable_draw : Negatable draw := ⟨by decide, by decide⟩

theorem Negatable.window (halpha : Negatable alpha) (hlt : alpha < beta) (hbeta : Negatable beta) :
    IntWindow alpha beta := ⟨hlt, halpha.1, hbeta.2⟩

theorem negatable_alpha (hw : IntWindow alpha beta) : Negatable alpha :=
  negatable_of_mem hw ⟨le_rfl, hw.lt.le⟩

theorem negatable_beta (hw : IntWindow alpha beta) : Negatable beta :=
  negatable_of_mem hw ⟨hw.lt.le, le_rfl⟩

/-- Fail-soft and fail-hard: either of two scores. -/
theorem Negatable.ite {c : Prop} [Decidable c] {score' : Int} (h : Negatable score)
    (h' : Negatable score') : Negatable (if c then score else score') := by
  split
  · exact h
  · exact h'

theorem Negatable.bound (halpha : Negatable alpha) (hbeta : Negatable beta) (hs : Negatable score) :
    Negatable (boundScore score alpha beta) :=
  hbeta.ite (halpha.ite hs)

theorem Negatable.negate (h : Negatable score) : Negatable (HoiChess.negate score) := by
  unfold HoiChess.negate
  obtain ⟨h1, h2⟩ := h
  rw [if_neg h1.ne']
  exact ⟨by omega, by omega⟩

theorem honest_abort : Honest .abort := ⟨fun _ => rfl, nofun⟩

theorem Negatable.honest (h : Negatable score) : Honest ⟨score, false⟩ := ⟨nofun, fun _ => h⟩

/-- A window fits. -/
theorem IntWindow.fits (hw : IntWindow alpha beta) : (Operation.window alpha beta).fits = true := by
  have hmin : intMin = -2147483648 := rfl
  obtain ⟨hlt, h1, h2⟩ := hw
  exact decide_eq_true ⟨⟨by omega, by omega⟩, by omega, by omega⟩

/-- So does a mate score. -/
theorem fits_mate {ply : Nat} (h : ply < maxply) : (Operation.mate ply).fits = true := by
  have hmin : intMin = -2147483648 := rfl
  obtain ⟨h1, h2⟩ := negatable_mateScore h
  exact decide_eq_true ⟨by omega, by omega⟩

/-- **A negation overflows exactly if the call has been aborted.** -/
theorem Honest.fits_negation (h : Honest r) :
    (Operation.negation r).fits = (Operation.negation r).unaborted := by
  have hmin : intMin = -2147483648 := rfl
  show decide (FitsInt (-r.score)) = !r.aborted
  cases hr : r.aborted with
  | true =>
    rw [h.aborted hr]
    rfl
  | false =>
    obtain ⟨h1, h2⟩ := h.finished hr
    exact decide_eq_true ⟨by omega, by omega⟩

end Scores

/-! ## The hash table -/

section Table

theorem storeScore_mem (alpha beta score : Int) :
    -mate ≤ (storeScore alpha beta score).2 ∧ (storeScore alpha beta score).2 ≤ mate := by
  have hmate : mate = 90000 := rfl
  unfold storeScore
  split
  · exact ⟨by decide, le_rfl⟩
  · split
    · exact ⟨le_rfl, by decide⟩
    · split
      · exact ⟨by omega, by omega⟩
      · split <;> exact ⟨by omega, by omega⟩

theorem moderate_store {hashtable : Option HashTable} (h : ∀ t, hashtable = some t → t.Moderate)
    (node : Node) (depth alpha beta score : Int) :
    ∀ t, storeHashtable hashtable node depth alpha beta score = some t → t.Moderate := by
  intro t ht
  obtain ⟨t₀, ht₀, rfl⟩ := Option.map_eq_some_iff.mp ht
  intro (i : Fin t₀.tableSize) htype
  have hput : (t₀.put (storeEntry node depth alpha beta score) node.bestLine).table i =
      Function.update t₀.table (t₀.key node.board.hashkey) (storeEntry node depth alpha beta score) i := rfl
  rw [hput] at htype ⊢
  rcases eq_or_ne i (t₀.key node.board.hashkey) with rfl | hi
  · rw [Function.update_self]
    exact storeScore_mem alpha beta score
  · rw [Function.update_of_ne hi] at htype ⊢
    exact h t₀ ht₀ i htype

theorem entryScore_negatable {failsoft : Bool} {e : HashEntry} {alpha beta score : Int}
    (he : -mate ≤ e.score ∧ e.score ≤ mate) (hw : IntWindow alpha beta)
    (h : entryScore failsoft e alpha beta = some score) : Negatable score := by
  cases failsoft with
  | false => exact negatable_of_mem hw (entryScore_mem hw.lt.le h)
  | true =>
    have hscore : e.score = score := by
      unfold entryScore at h
      rw [if_pos rfl] at h
      cases ht : e.type with
      | none => simp [ht] at h
      | exact => simpa [ht] using h
      | alpha | beta =>
        simp only [ht] at h
        exact Option.some.inj (Option.ite_none_right_eq_some.mp h).2
    have hmate : mate = 90000 := rfl
    have hmin : intMin = -2147483648 := rfl
    obtain ⟨h1, h2⟩ := he
    exact ⟨by omega, by omega⟩

theorem probeHashtable_negatable [Build] {failsoft : Bool} {hashtable : Option HashTable}
    (h : ∀ t, hashtable = some t → t.Moderate) {node : Node} {depth alpha beta score : Int}
    (hw : IntWindow alpha beta)
    (hp : (probeHashtable failsoft hashtable node depth alpha beta).2 = some score) :
    Negatable score := by
  unfold probeHashtable at hp
  cases hashtable with
  | none => cases hp
  | some t =>
    simp only at hp
    cases hprobe : t.probe node.board with
    | none => simp [hprobe] at hp
    | some found =>
      obtain ⟨e, pvline⟩ := found
      have he : e.type ≠ .none ∧ e = t.table (t.key node.board.hashkey) := by
        unfold HashTable.probe at hprobe
        simp only at hprobe
        split at hprobe
        · cases hprobe
        · rename_i hnot
          split at hprobe
          · cases hprobe
          · obtain ⟨rfl, -⟩ := Prod.mk.inj (Option.some.inj hprobe)
            exact ⟨fun ht => hnot (.inl ht), rfl⟩
      simp only [hprobe] at hp
      split at hp
      · refine entryScore_negatable ?_ hw hp
        rw [he.2]
        exact h t rfl _ (he.2 ▸ he.1)
      · cases hp

end Table

/-! ## Both versions do the same -/

/-- With a moderate table both do the same. -/
abbrev Alike {α : Type} (m m' : SearchM α) (Q : α → Prop) : Prop := Same SearchState.Moderate m m' Q

section Primitives

variable {α : Type} {Q : α → Prop} {g : SearchState → SearchState} {f f' : Unit → SearchM α}

/-- A change that leaves the table alone. -/
theorem modify_alike (hg : ∀ st, (g st).hashtable = st.hashtable) :
    Alike (Exec.modify g) (Exec.modify g) (fun _ => True) := by
  refine Same.modify fun st h t ht => h t ?_
  rw [← hg]
  exact ht

theorem modify_bind_alike (hg : ∀ st, (g st).hashtable = st.hashtable) (h : Alike (f ()) (f' ()) Q) :
    Alike (Exec.modify g >>= f) (Exec.modify g >>= f') Q := (modify_alike hg).bind fun _ _ => h

variable (env : SearchEnv)

theorem emit_alike (e : Event) : Alike (emit e) (emit e) (fun _ => True) := modify_alike fun _ => rfl

theorem tick_alike : Alike tick tick (fun _ => True) :=
  Same.get.bind fun _ _ => modify_bind_alike (fun _ => rfl) (Same.pure trivial)

theorem readStop_alike : Alike (readStop env) (readStop env) (fun _ => True) :=
  tick_alike.bind fun _ _ => modify_bind_alike (fun _ => rfl)
    (Same.get.bind fun _ _ => Same.pure trivial)

theorem checkTime_alike (force : Bool) :
    Alike (checkTime env force) (checkTime env force) (fun _ => True) := by
  refine Same.get.bind fun st _ => .ite (fun _ => Same.pure trivial) fun _ => ?_
  refine tick_alike.bind fun t _ => .ite (fun _ => modify_alike fun _ => rfl) fun _ => ?_
  refine tick_alike.bind fun t _ => modify_bind_alike (fun st => ?_)
    (modify_bind_alike (fun _ => rfl) (tick_alike.bind fun _ _ => modify_alike fun _ => rfl))
  split <;> rfl

theorem free_alike (node : Node) : Alike (free node) (free node) (fun _ => True) :=
  modify_alike fun _ => rfl

theorem store_alike (node : Node) (depth alpha beta score : Int) :
    Alike (store node depth alpha beta score) (store node depth alpha beta score) (fun _ => True) :=
  Same.modify_bind (fun _ h => moderate_store h node depth alpha beta score) (emit_alike _)

theorem addHistory_alike (node : Node) : Alike (addHistory node) (addHistory node) (fun _ => True) :=
  .ite (fun _ => Same.pure trivial) fun _ => modify_bind_alike (fun _ => rfl) (emit_alike _)

theorem returning_alike {m m' : SearchM (Node × Ret)} {P : Node × Ret → Prop} (h : Alike m m' P)
    (caller : Caller) (alpha beta : Int) :
    Alike (returning caller alpha beta m) (returning caller alpha beta m') P :=
  h.bind fun _ hp => Same.get.bind fun _ _ => (emit_alike _).bind fun _ _ => Same.pure hp

variable [Build]

theorem addKiller_alike {node : Node} (h : node.Sound) :
    Alike (addKiller node) (addKiller node) Node.Sound :=
  .ite (fun _ => (emit_alike _).bind fun _ _ => Same.pure (h.addKiller _)) fun _ => Same.pure h

theorem makeMove_alike (node : Node) (mov : Move) : Alike (makeMove node mov) (makeMove node mov)
    (fun child => ∃ slot, child = node.makeMove mov slot) :=
  Same.get.bind fun st _ => .ite
    (fun _ => modify_bind_alike (fun _ => rfl) (Same.pure ⟨st.slots st.nextSlot, rfl⟩))
    fun _ => Same.bug

theorem start_alike (node : Node) : Alike (start env node) (start env node)
    (fun n => ∃ history, node.start env.beyond history = some n) := by
  refine Same.get.bind fun st _ => ?_
  cases hs : node.start env.beyond st.histtable with
  | none => exact Same.bug
  | some n => exact Same.pure ⟨_, hs⟩

/-- What a probe finds can be negated. -/
theorem probe_alike {node : Node} (h : node.Sound) (depth : Int) {alpha beta : Int}
    (hw : IntWindow alpha beta) : Alike (probe env node depth alpha beta)
      (probe env node depth alpha beta)
      (fun p => p.1.Sound ∧ ∀ score, p.2 = some score → Negatable score) := by
  refine Same.get.bind fun st hst => Same.pure ⟨?_, fun score hs => probeHashtable_negatable hst hw hs⟩
  obtain ⟨hashmv, pvline, hn⟩ := probeHashtable_node env.failsoft st.hashtable node depth alpha beta
  rw [hn]
  exact h.congr ⟨rfl, rfl, rfl, rfl⟩ rfl

end Primitives

/-! ### The loop over the moves -/

/-- The scores of a loop can be negated. -/
structure MoveLoop.Ranged [Build] (ls : MoveLoop) : Prop where
  sound : ls.node.Sound
  alpha : Negatable ls.alpha
  bestscore : Negatable ls.bestscore

/-- A move has been visited. -/
theorem MoveLoop.Ranged.visited [Build] {ls : MoveLoop} (h : ls.Ranged) (moves : Nat) (first : Bool) :
    MoveLoop.Ranged { ls with moves := moves, first := first } :=
  ⟨h.sound, h.alpha, h.bestscore⟩

def LoopStep.Ranged [Build] (beta : Int) : LoopStep → Prop
  | .next ls => ls.Ranged ∧ ls.alpha < beta
  | .cut ls => ls.Ranged
  | .abort ls => ls.node.Sound

section Loops

variable [Build] {env : SearchEnv} {ls : MoveLoop} {beta : Int} {r : Ret}

theorem updateBest_alike (h : ls.Ranged) (hr : Negatable r.score) (mov : Move) (child : Node) :
    Alike (updateBest ls mov child r) (updateBest ls mov child r)
      (fun ls' => ls'.Ranged ∧ ls'.alpha = ls.alpha) := by
  refine .ite (fun _ => ?_) fun _ => Same.pure ⟨h, rfl⟩
  refine (emit_alike _).bind fun _ _ => (emit_alike _).bind fun _ _ => Same.pure ⟨⟨?_, h.alpha, hr⟩, rfl⟩
  exact (Node.continues_setBest _ mov child).keeps.sound h.sound

theorem updateAlpha_alike (h : ls.Ranged) (hr : Negatable r.score) (hlt : ls.alpha < beta) :
    Alike (updateAlpha ls r) (updateAlpha ls r)
      (fun ls' => ls'.Ranged ∧ (r.score < beta → ls'.alpha < beta)) :=
  .ite (fun _ => (emit_alike _).bind fun _ _ => Same.pure ⟨⟨h.sound, hr, h.bestscore⟩, id⟩)
    fun _ => Same.pure ⟨h, fun _ => hlt⟩

theorem conclude_alike (h : ls.Ranged) (hlt : ls.alpha < beta) (hr : Negatable r.score) (mov : Move)
    (child : Node) {note : Node → Node} (hnote : ∀ node, Node.Continues node (note node)) :
    Alike (conclude env ls mov child r beta note) (conclude env ls mov child r beta note)
      (LoopStep.Ranged beta) := by
  have htaint : ({ ls.node with tainted := ls.node.tainted || r.aborted } : Node).Sound :=
    h.sound.congr ⟨rfl, rfl, rfl, rfl⟩ rfl
  refine (readStop_alike env).bind fun stopped _ => .ite (fun _ => ?_) fun _ => ?_
  · exact (free_alike child).bind fun _ _ => Same.pure htaint
  · have hls : MoveLoop.Ranged
        { ls with node := note { ls.node with tainted := ls.node.tainted || r.aborted } } :=
      ⟨(hnote _).keeps.sound htaint, h.alpha, h.bestscore⟩
    refine (updateBest_alike hls hr mov child).bind fun ls₁ h₁ => (free_alike child).bind fun _ _ => ?_
    obtain ⟨h₁, halpha⟩ := h₁
    refine (updateAlpha_alike h₁ hr (halpha.trans_lt hlt)).bind fun ls₂ h₂ => ?_
    exact .ite (fun _ => Same.pure h₂.1) fun hcut => Same.pure ⟨h₂.1, h₂.2 (not_le.mp hcut)⟩

/-- **A loop** over the moves of a node keeps its scores in range, if each visit does. -/
theorem moveLoop_alike {visit visit' : MoveLoop → Move → SearchM LoopStep}
    (hvisit : ∀ ls mov, ls.Ranged → ls.alpha < beta → ls.node.board.Lists mov →
      Alike (visit ls mov) (visit' ls mov) (LoopStep.Ranged beta)) (fuel : Nat) (ls : MoveLoop)
    (h : ls.Ranged) (hlt : ls.alpha < beta) : Alike (moveLoop visit fuel ls) (moveLoop visit' fuel ls)
      (fun p => p.1.node.Sound ∧ (p.2 = false → p.1.Ranged)) := by
  induction fuel generalizing ls with
  | zero => exact Same.outOfFuel
  | succ fuel ih =>
    have hpick : ls.node.pick.1.Sound := (Node.keeps_pick ls.node).sound h.sound
    refine .ite (fun _ => Same.pure ⟨hpick, fun _ => ⟨hpick, h.alpha, h.bestscore⟩⟩) fun hmov => ?_
    obtain ⟨-, hlist, -⟩ := h.sound.visit hmov
    refine (hvisit { ls with node := ls.node.pick.1 } _ ⟨hpick, h.alpha, h.bestscore⟩ hlt hlist).bind
      fun st hst => ?_
    cases st with
    | next ls' =>
      obtain ⟨h', hlt'⟩ : ls'.Ranged ∧ ls'.alpha < beta := hst
      exact ih ls' h' hlt'
    | cut ls' =>
      have h' : ls'.Ranged := hst
      exact Same.pure ⟨h'.sound, fun _ => h'⟩
    | abort ls' => exact Same.pure ⟨hst, fun h => absurd h Bool.noConfusion⟩

/-- **After its loop** a function has been told to stop, or looks at the scores. -/
theorem afterLoop_alike {visit visit' : MoveLoop → Move → SearchM LoopStep}
    {f f' : MoveLoop × Bool → SearchM (Node × Ret)} {Q : Node × Ret → Prop}
    (hvisit : ∀ ls mov, ls.Ranged → ls.alpha < beta → ls.node.board.Lists mov →
      Alike (visit ls mov) (visit' ls mov) (LoopStep.Ranged beta))
    (hstopped : ∀ ls, ls.node.Sound → Alike (f (ls, true)) (f' (ls, true)) Q)
    (hfinished : ∀ ls, ls.Ranged → Alike (f (ls, false)) (f' (ls, false)) Q)
    (fuel : Nat) (h : ls.Ranged) (hlt : ls.alpha < beta) :
    Alike (moveLoop visit fuel ls >>= f) (moveLoop visit' fuel ls >>= f') Q := by
  refine (moveLoop_alike hvisit fuel ls h hlt).bind ?_
  rintro ⟨ls, stopped⟩ ⟨hsound, hdone⟩
  cases stopped with
  | true => exact hstopped ls hsound
  | false => exact hfinished ls (hdone rfl)

end Loops

/-! ### The searching functions -/

section Calls

variable [Build] {rec rec' : Node → Int → Int → SearchM (Node × Ret)} {child : Node} {a b : Int}

/-- The searches of children, for a parent that negates what they return. -/
def CallsAlike (rec rec' : Node → Int → Int → SearchM (Node × Ret)) : Prop :=
  ∀ child a b, child.Sound → IntWindow a b →
    Alike (rec child a b) (rec' child a b) (fun p => p.1.Sound ∧ Negatable p.2.score)

/-- **The negation overflows exactly where it is noticed that the child was aborted.** -/
theorem negating_alike (hw : IntWindow a b)
    (h : Alike (rec child a b) (rec' child a b) (fun p => p.1.Sound ∧ Honest p.2)) :
    Alike (negating Operation.fits rec child a b) (negating Operation.unaborted rec' child a b)
      (fun p => p.1.Sound ∧ Negatable p.2.score) := by
  refine Same.require_bind hw.fits fun _ => h.bind fun p hp => ?_
  obtain ⟨hsound, hr⟩ := hp
  refine Same.require_bind (Honest.fits_negation hr) fun hfits => Same.pure ⟨hsound, hr.finished ?_⟩
  rw [Honest.fits_negation hr] at hfits
  exact (Bool.not_eq_true' _).mp hfits

theorem negated_alike (h : CallsAlike rec rec') (hc : child.Sound) (hw : IntWindow a b) :
    Alike (negated rec child a b) (negated rec' child a b)
      (fun p => p.1.Sound ∧ Negatable p.2.score) :=
  (h child a b hc hw).bind fun _ hp => Same.pure ⟨hp.1, hp.2.negate⟩

theorem scout_alike (env : SearchEnv) (h : CallsAlike rec rec') (hc : child.Sound) (hw : IntWindow a b)
    (first : Bool) (saveAlpha : Int) :
    Alike (scout env rec child first a saveAlpha b) (scout env rec' child first a saveAlpha b)
      (fun p => p.1.Sound ∧ Negatable p.2.score) := by
  refine .ite (fun _ => ?_) fun _ => negated_alike h hc hw.negated
  refine (negated_alike h hc hw.null).bind fun p hp => .ite (fun _ => ?_) fun _ => Same.pure hp
  exact (negated_alike h hp.1 hw.negated).bind fun _ hq => Same.pure hq

end Calls

/-- The static scores are those of an evaluator, whatever it has seen before. -/
def Evaluates [Build] (env : SearchEnv) : Prop :=
  ∀ t board alpha beta, ∃ e, Evaluator.Used e ∧ env.eval t board alpha beta = (e.eval board alpha beta).1

section Searching

variable [Build] {env : SearchEnv} {ls : MoveLoop} {node : Node} {ply : Nat} {alpha beta score : Int}

theorem eval_alike (henv : Evaluates env) (h : node.Sound) (alpha beta : Int) :
    Alike (eval env node.board alpha beta) (eval env node.board alpha beta) Negatable := by
  refine tick_alike.bind fun t _ => Same.pure ?_
  obtain ⟨e, he, heq⟩ := henv t node.board alpha beta
  have hb := Evaluator.ordinary_of_sim h.board.sim h.board.sane.toValid
  rw [heq]
  exact negatable_of_abs_lt (Evaluator.abs_eval_lt he.small hb.consistent alpha beta)

theorem visitQuiesce_alike {rec rec' : Node → Int → Int → SearchM (Node × Ret)}
    (hrec : CallsAlike rec rec') (hb : Negatable beta) (h : ls.Ranged) (hlt : ls.alpha < beta) {mov : Move}
    (hlist : ls.node.board.Lists mov) :
    Alike (visitQuiesce env rec beta ls mov) (visitQuiesce env rec' beta ls mov)
      (LoopStep.Ranged beta) := by
  refine (makeMove_alike ls.node mov).bind ?_
  rintro child ⟨slot, rfl⟩
  refine .ite (fun _ => ?_) fun hl => ?_
  · exact (free_alike _).bind fun _ _ => Same.pure ⟨h, hlt⟩
  · have hchild := h.sound.makeMove hlist slot (by simpa using hl) (ls.node.makeMove mov slot).pvline
    refine (negated_alike hrec hchild (h.alpha.window hlt hb).negated).bind fun p hp =>
      (checkTime_alike env false).bind fun _ _ => ?_
    exact conclude_alike (h.visited (ls.moves + 1) false) hlt hp.2 mov p.1 fun _ => .refl _

theorem finishQuiesce_alike (hply : ply < maxply) (hb : Negatable beta) (h : ls.Ranged) (saveAlpha : Int) :
    Alike (finishQuiesce env ply saveAlpha beta ls) (finishQuiesce env ply saveAlpha beta ls)
      (fun p => p.1.Sound ∧ Honest p.2) := by
  have hmate := negatable_mateScore hply
  refine (store_alike ls.node 0 saveAlpha beta _).bind fun _ _ => Same.pure ⟨h.sound, Negatable.honest ?_⟩
  exact (hmate.ite h.bestscore).ite ((h.alpha.bound hb hmate).ite h.alpha)

theorem quiesceMoves_alike {rec rec' : Node → Int → Int → SearchM (Node × Ret)}
    (hrec : CallsAlike rec rec') (h : node.Sound) (hply : ply < maxply) (hw : IntWindow alpha beta)
    (hscore : Negatable score) (hlt : score < beta) :
    Alike (quiesceMoves env rec node ply alpha beta score) (quiesceMoves env rec' node ply alpha beta score)
      (fun p => p.1.Sound ∧ Honest p.2) := by
  have hb := negatable_beta hw
  refine (start_alike env _).bind ?_
  rintro n ⟨history, hstart⟩
  have hn : n.Sound := h.started hstart (.refl n) ⟨rfl, rfl, rfl, rfl⟩ rfl
  have hbest : Negatable (if env.failsoft then score else -infty) := hscore.ite negatable_neg_infty
  have halpha : Negatable (max score alpha) := by
    rcases max_choice score alpha with hm | hm <;> rw [hm]
    · exact hscore
    · exact negatable_alpha hw
  have hls : MoveLoop.Ranged ⟨n, max score alpha, if env.failsoft then score else -infty, 0, true⟩ :=
    ⟨hn, halpha, hbest⟩
  refine afterLoop_alike (fun ls mov hls hl hlist => ?_) (fun ls hls => ?_) (fun ls hls => ?_) loopFuel
    hls (max_lt hlt hw.lt)
  · exact visitQuiesce_alike hrec hb hls hl hlist
  · exact Same.pure ⟨hls, honest_abort⟩
  · exact finishQuiesce_alike hply hb hls alpha

/-- **Quiescence search** overflows exactly where it negates what an aborted call returned. -/
theorem checkedQuiescenceSearch_alike (henv : Evaluates env) (fuel : Nat) (h : node.Sound)
    (hply : ply < maxply) (hw : IntWindow alpha beta) :
    Alike (checkedQuiescenceSearch Operation.fits env fuel node ply alpha beta)
      (checkedQuiescenceSearch Operation.unaborted env fuel node ply alpha beta)
      (fun p => p.1.Sound ∧ Honest p.2) := by
  induction fuel generalizing node ply alpha beta with
  | zero => exact Same.outOfFuel
  | succ fuel ih =>
    refine returning_alike (Same.require_bind (fits_mate hply) fun _ => ?_) .quiesce alpha beta
    refine modify_bind_alike (fun _ => rfl) ((probe_alike env h 0 hw).bind ?_)
    rintro ⟨n, hit⟩ ⟨hn, hhit⟩
    cases hit with
    | some score => exact Same.pure ⟨hn, (hhit score rfl).honest⟩
    | none =>
      refine (eval_alike henv hn alpha beta).bind fun score hscore => .ite (fun _ => ?_) fun hcut =>
        .ite (fun _ => ?_) fun hlast => ?_
      · exact Same.pure ⟨hn, (hscore.ite (negatable_beta hw)).honest⟩
      · exact Same.get.bind fun st _ => (emit_alike _).bind fun _ _ => Same.pure ⟨hn, hscore.honest⟩
      · refine quiesceMoves_alike (fun child a b hc hab => negating_alike hab ?_) hn hply hw hscore
          (not_le.mp hcut)
        exact ih hc (by omega) hab

/-! ### Full-width search -/

theorem visitSearch_alike {rec rec' : Node → Int → Int → SearchM (Node × Ret)}
    (hrec : CallsAlike rec rec') (hb : Negatable beta) (h : ls.Ranged) (hlt : ls.alpha < beta)
    (fprune : Bool) (saveAlpha : Int) {mov : Move} (hlist : ls.node.board.Lists mov) :
    Alike (visitSearch env rec fprune saveAlpha beta ls mov)
      (visitSearch env rec' fprune saveAlpha beta ls mov) (LoopStep.Ranged beta) := by
  refine (makeMove_alike ls.node mov).bind ?_
  rintro child ⟨slot, rfl⟩
  refine .ite (fun _ => ?_) fun hl => .ite (fun _ => ?_) fun _ => ?_
  · exact (free_alike _).bind fun _ _ => Same.pure ⟨h, hlt⟩
  · exact (free_alike _).bind fun _ _ => Same.pure ⟨h.visited (ls.moves + 1) ls.first, hlt⟩
  · have hchild := h.sound.makeMove hlist slot (by simpa using hl) (ls.node.makeMove mov slot).pvline
    refine (scout_alike env hrec hchild (h.alpha.window hlt hb) ls.first saveAlpha).bind fun p hp =>
      (checkTime_alike env false).bind fun _ _ => ?_
    exact conclude_alike (h.visited (ls.moves + 1) false) hlt hp.2 mov p.1 fun _ => .refl _

theorem finishSearch_alike (hply : ply < maxply) (hb : Negatable beta) (h : ls.Ranged)
    (depth saveAlpha : Int) :
    Alike (finishSearch env ply depth saveAlpha beta ls) (finishSearch env ply depth saveAlpha beta ls)
      (fun p => p.1.Sound ∧ Honest p.2) := by
  have hmate : Negatable (if ls.node.incheck then -infty + ply else draw) :=
    (negatable_mateScore hply).ite negatable_draw
  refine (store_alike ls.node depth saveAlpha beta _).bind fun _ _ =>
    (addHistory_alike ls.node).bind fun _ _ => (addKiller_alike h.sound).bind fun n hn =>
      Same.pure ⟨hn, Negatable.honest ?_⟩
  exact (hmate.ite h.bestscore).ite ((h.alpha.bound hb hmate).ite h.alpha)

section FullWidth

variable {rec rec' : Node → Nat → Int → Int → Int → SearchM (Node × Ret)}

theorem searchMoves_alike (h : node.Sound) (hply : ply < maxply) (hw : IntWindow alpha beta)
    {depth : Int} (hrec : CallsAlike (fun child => rec child (ply + 1) (mainDepth node depth alpha - 1))
      (fun child => rec' child (ply + 1) (mainDepth node depth alpha - 1))) :
    Alike (searchMoves env rec node ply depth alpha beta)
      (searchMoves env rec' node ply depth alpha beta) (fun p => p.1.Sound ∧ Honest p.2) := by
  have hb := negatable_beta hw
  refine (start_alike env _).bind ?_
  rintro n ⟨history, hstart⟩
  have hn : n.Sound := h.started hstart (.refl n) ⟨rfl, rfl, rfl, rfl⟩ rfl
  have hls : MoveLoop.Ranged ⟨n, alpha, -infty, 0, true⟩ :=
    ⟨hn, negatable_alpha hw, negatable_neg_infty⟩
  refine afterLoop_alike (fun ls mov hls hl hlist => ?_) (fun ls hls => ?_) (fun ls hls => ?_) loopFuel
    hls hw.lt
  · exact visitSearch_alike hrec hb hls hl (fprune node depth alpha) alpha hlist
  · exact Same.pure ⟨hls, honest_abort⟩
  · exact (emit_alike _).bind fun _ _ => finishSearch_alike hply hb hls _ alpha

/-- A score that cuts comes from a child that was not aborted. -/
theorem nullMove_alike (h : node.Sound) (hw : IntWindow alpha beta) {depth : Int}
    (hrec : CallsAlike (fun child => rec child (ply + 1) (depth - 2 - 1))
      (fun child => rec' child (ply + 1) (depth - 2 - 1))) :
    Alike (nullMove env rec node ply depth beta) (nullMove env rec' node ply depth beta)
      (fun cut => ∀ score, cut = some score → Negatable score) := by
  unfold nullMove
  split
  · exact Same.bug
  · rename_i parent rest hparent
    refine .ite (fun hc => ?_) fun _ => Same.pure nofun
    have hcheck : node.incheck = false := by
      cases hi : node.incheck with
      | false => rfl
      | true => simp [hi] at hc
    refine (makeMove_alike node .null).bind ?_
    rintro child ⟨slot, rfl⟩
    refine (hrec _ _ _ (h.makeNull hcheck slot) hw.pass).bind fun p hp => (free_alike p.1).bind fun _ _ =>
      .ite (fun _ => Same.pure ?_) fun _ => Same.pure nofun
    rintro score hscore
    obtain rfl := Option.some.inj hscore
    exact hp.2.negate.ite (negatable_beta hw)

theorem deepen_alike (h : node.Sound) {depth : Int}
    (hrec : 2 < depth → Alike (rec node ply (depth - 2) alpha beta) (rec' node ply (depth - 2) alpha beta)
      (fun p => p.1.Sound ∧ Honest p.2)) :
    Alike (deepen rec node ply depth alpha beta) (deepen rec' node ply depth alpha beta) Node.Sound :=
  .ite (fun hc => (hrec hc.2.2).bind fun _ hp => Same.pure (hp.1.congr ⟨rfl, rfl, rfl, rfl⟩ rfl))
    fun _ => Same.pure h

end FullWidth

/-- **So does the full-width search.** -/
theorem checkedSearch_alike (henv : Evaluates env) (fuel : Nat) (h : node.Sound) {depth : Int}
    (hply : ply + depth.toNat < maxply) (hw : IntWindow alpha beta) :
    Alike (checkedSearch Operation.fits env fuel node ply depth alpha beta)
      (checkedSearch Operation.unaborted env fuel node ply depth alpha beta)
      (fun p => p.1.Sound ∧ Honest p.2) := by
  induction fuel generalizing node ply depth alpha beta with
  | zero => exact Same.outOfFuel
  | succ fuel ih =>
    have hlow : ply < maxply := by omega
    refine returning_alike (Same.require_bind (fits_mate hlow) fun _ => ?_) .search alpha beta
    refine .ite (fun _ => checkedQuiescenceSearch_alike henv fuel h hlow hw) fun hdepth => ?_
    cases hdraw : node.isDraw with
    | some drawscore =>
      have hscore : Negatable drawscore := by
        rw [isDraw_eq_draw hdraw]
        exact negatable_draw
      have hbound := (negatable_alpha hw).bound (negatable_beta hw) hscore
      exact Same.pure ⟨h, (hscore.ite hbound).honest⟩
    | none =>
      have hchild : ∀ d : Int, d < depth → CallsAlike
          (fun child => if ply + 1 = ply then checkedSearch Operation.fits env fuel child (ply + 1) d
            else negating Operation.fits
              (fun child => checkedSearch Operation.fits env fuel child (ply + 1) d) child)
          (fun child => if ply + 1 = ply then checkedSearch Operation.unaborted env fuel child (ply + 1) d
            else negating Operation.unaborted
              (fun child => checkedSearch Operation.unaborted env fuel child (ply + 1) d) child) := by
        intro d hd child a b hc hab
        have hne : ¬ ply + 1 = ply := by omega
        beta_reduce
        rw [if_neg hne, if_neg hne]
        exact negating_alike hab (ih hc (by omega) hab)
      refine modify_bind_alike (fun _ => rfl) ((probe_alike env h depth hw).bind ?_)
      rintro ⟨n, hit⟩ ⟨hn, hhit⟩
      cases hit with
      | some score => exact Same.pure ⟨hn, (hhit score rfl).honest⟩
      | none =>
        refine (nullMove_alike hn hw (hchild (depth - 2 - 1) (by omega))).bind ?_
        rintro (_ | score) hcut
        · refine (deepen_alike hn fun hd => ?_).bind fun n₂ hn₂ => ?_
          · rw [if_pos rfl, if_pos rfl]
            exact ih hn (by omega) hw
          · have hle := mainDepth_le n₂ depth alpha
            exact searchMoves_alike hn₂ hlow hw (hchild _ (by omega))
        · exact Same.pure ⟨hn, (hcut score rfl).honest⟩

/-! ### The root -/

theorem sound_withLine {map : Move → Option PvLine} {mov : Move} {slot : Option Color}
    (h : node.Sound) (hlist : node.board.Lists mov) (hl : (node.makeMove mov slot).board.isLegal = true) :
    (withLine map mov (node.makeMove mov slot)).Sound := by
  unfold withLine
  split
  · exact h.makeMove hlist slot hl _
  · exact h.makeMove hlist slot hl (node.makeMove mov slot).pvline

theorem visitRoot_alike {rec rec' : Node → Int → Int → SearchM (Node × Ret)}
    (hrec : CallsAlike rec rec') (hb : Negatable beta) (h : ls.Ranged) (hlt : ls.alpha < beta)
    (saveAlpha : Int) {mov : Move} (hlist : ls.node.board.Lists mov) :
    Alike (visitRoot env rec saveAlpha beta ls mov) (visitRoot env rec' saveAlpha beta ls mov)
      (LoopStep.Ranged beta) := by
  refine (makeMove_alike ls.node mov).bind ?_
  rintro child ⟨slot, rfl⟩
  refine .ite (fun _ => Same.bug) fun hl => Same.get.bind fun st _ =>
    (checkTime_alike env true).bind fun _ _ => ?_
  have hchild : (withLine st.ply1PvlineMap mov (ls.node.makeMove mov slot)).Sound :=
    sound_withLine h.sound hlist (by simpa using hl)
  refine (scout_alike env hrec hchild (h.alpha.window hlt hb) ls.first saveAlpha).bind fun p hp =>
    modify_bind_alike (fun _ => rfl) ?_
  exact conclude_alike (h.visited (ls.moves + 1) false) hlt hp.2 mov p.1
    fun node => Node.continues_setCurrentScore node _

/-- **So does the search of the root.** -/
theorem checkedSearchRoot_alike (henv : Evaluates env) (fuel : Nat) (h : node.Sound) {depth : Int}
    (hdepth : depth.toNat < maxply) (hw : IntWindow alpha beta) :
    Alike (checkedSearchRoot Operation.fits env fuel node depth alpha beta)
      (checkedSearchRoot Operation.unaborted env fuel node depth alpha beta)
      (fun p => p.1.Sound ∧ Honest p.2) := by
  have hply : maxply = 1024 := rfl
  have hrec : CallsAlike
      (negating Operation.fits fun child => checkedSearch Operation.fits env fuel child 1 (depth - 1))
      (negating Operation.unaborted fun child =>
        checkedSearch Operation.unaborted env fuel child 1 (depth - 1)) :=
    fun child a b hc hab => negating_alike hab (checkedSearch_alike henv fuel hc (by omega) hab)
  refine returning_alike ((start_alike env node).bind ?_) .root alpha beta
  rintro n ⟨history, hstart⟩
  have hls : MoveLoop.Ranged ⟨n, alpha, -infty, 0, true⟩ :=
    ⟨h.start hstart, negatable_alpha hw, negatable_neg_infty⟩
  refine afterLoop_alike (fun ls mov hls hl hlist => ?_) (fun ls hls => ?_) (fun ls hls => ?_) loopFuel
    hls hw.lt
  · exact visitRoot_alike hrec (negatable_beta hw) hls hl alpha hlist
  · exact Same.pure ⟨hls, honest_abort⟩
  · exact (addHistory_alike ls.node).bind fun _ _ =>
      Same.pure ⟨hls.sound, (hls.bestscore.ite hls.alpha).honest⟩

/-- The plies of a call are below `MAXPLY`. -/
def Call.WithinPlies : Call → Prop
  | .root _ depth => depth.toNat < maxply
  | .search _ ply depth => ply + depth.toNat < maxply
  | .quiesce _ ply => ply < maxply

theorem Call.Fits.withinPlies {call : Call} {st : SearchState} (h : call.Fits st) : call.WithinPlies := by
  cases call with
  | root node depth => exact h.2.1
  | search node ply depth => exact h.2.1
  | quiesce node ply => exact h.2

/-- **A call overflows exactly where it negates what an aborted call returned**, and otherwise
returns a score that can be negated. -/
theorem Call.checked_alike (henv : Evaluates env) (fuel : Nat) (call : Call) (h : call.node.Sound)
    (hplies : call.WithinPlies) (hw : IntWindow alpha beta) :
    Alike (call.checked Operation.fits env fuel alpha beta)
      (call.checked Operation.unaborted env fuel alpha beta) (fun p => p.1.Sound ∧ Honest p.2) := by
  cases call with
  | root node depth => exact checkedSearchRoot_alike henv fuel h hplies hw
  | search node ply depth => exact checkedSearch_alike henv fuel h hplies hw
  | quiesce node ply => exact checkedQuiescenceSearch_alike henv fuel h hplies hw

end Searching

/-! ## A search with an evaluator -/

/-- Every position is worth what a new evaluator says; somebody may have interrupted the search. -/
def evaluating [Build] (interrupted : Bool) : SearchEnv :=
  { stillEnv false 0 with
    eval := fun _ board alpha beta => (Evaluator.create.eval board alpha beta).1
    interrupted := fun _ => interrupted }

theorem evaluates_evaluating [Build] (interrupted : Bool) : Evaluates (evaluating interrupted) :=
  fun _ _ _ _ => ⟨Evaluator.create, .create, rfl⟩

end Search

end HoiChess
