import HoiChess.Common.Iteration
import HoiChess.Common.Termination
import HoiChess.Common.Calls
import HoiChess.Common.SoundNode
import HoiChess.Chess.Exact
import HoiChess.Chess.Reached

/-!
# The windows of iterative deepening

Each call of `search_root` is followed by another one with a wider window, by one for the next
depth with a window around the score, or by none.  Whatever the scores are, all windows are sane
and no depth takes more than three calls (`Asks.sane`, `Asks.count_le`): a window that was opened
to one side cannot fail there.
-/

namespace HoiChess

open Chess Rules Exec

namespace Search

/-- A call of `search_root` by `iterate`, with what it returns. -/
structure RootCall where
  depth : Nat
  alpha : Int
  beta : Int
  score : Int

namespace RootCall

/-- The window is not empty and within the range of the scores. -/
def Sane (c : RootCall) : Prop := -infty ≤ c.alpha ∧ c.alpha < c.beta ∧ c.beta ≤ infty

def key (c : RootCall) : Int × Int × Int := (c.alpha, c.beta, c.score)

end RootCall

/-- The calls that `iterate` makes from a depth and a window on, for any scores that
`search_root` may return. -/
inductive Asks : Nat → Int → Int → List RootCall → Prop
  | none {depth alpha beta} : Asks depth alpha beta []
  | last {depth alpha beta score} : Asks depth alpha beta [⟨depth, alpha, beta, score⟩]
  | again {depth alpha beta score node best s es alpha' beta' calls} :
      Decides node best score alpha beta s es (.again alpha' beta') →
      Asks depth alpha' beta' calls →
      Asks depth alpha beta (⟨depth, alpha, beta, score⟩ :: calls)
  | deeper {depth alpha beta score node best s es best' alpha' beta' calls} :
      Decides node best score alpha beta s es (.deeper best' alpha' beta') →
      Asks (depth + 1) alpha' beta' calls →
      Asks depth alpha beta (⟨depth, alpha, beta, score⟩ :: calls)

section Windows

variable {node : Node} {best : Move} {score alpha beta : Int} {s : Bool} {es : List Event}

/-- A wider window is sane and has been opened once more. -/
theorem Decides.again_sane {alpha' beta' : Int}
    (h : Decides node best score alpha beta s es (.again alpha' beta')) (hlow : -infty ≤ alpha)
    (hlt : alpha < beta) (hhigh : beta ≤ infty) :
    -infty ≤ alpha' ∧ alpha' < beta' ∧ beta' ≤ infty ∧
      openings alpha' beta' < openings alpha beta := by
  have hmate : mate = 90000 := rfl
  have hinfty : infty = 100000 := rfl
  cases h with
  | low h1 h2 =>
    refine ⟨le_rfl, by omega, hhigh, ?_⟩
    unfold openings
    rw [if_pos le_rfl, if_neg (by omega : ¬ alpha ≤ -infty)]
    omega
  | high h1 h2 =>
    refine ⟨hlow, by omega, le_rfl, ?_⟩
    unfold openings
    rw [if_pos (le_refl infty), if_neg (by omega : ¬ infty ≤ beta)]
    omega

/-- The window of the next depth lies around a score that is no mate. -/
theorem Decides.deeper_sane {best' : Move} {alpha' beta' : Int}
    (h : Decides node best score alpha beta s es (.deeper best' alpha' beta')) :
    -infty ≤ alpha' ∧ alpha' < beta' ∧ beta' ≤ infty := by
  have hmate : mate = 90000 := rfl
  have hinfty : infty = 100000 := rfl
  have hwindow : window = 50 := rfl
  cases h with
  | deeper h1 h2 => omega

theorem Asks.sane {depth : Nat} {calls : List RootCall} (h : Asks depth alpha beta calls)
    (hlow : -infty ≤ alpha) (hlt : alpha < beta) (hhigh : beta ≤ infty) : ∀ c ∈ calls, c.Sane := by
  induction h with
  | none => simp
  | last => simpa using ⟨hlow, hlt, hhigh⟩
  | again hd _ ih =>
    obtain ⟨h1, h2, h3, _⟩ := hd.again_sane hlow hlt hhigh
    exact List.forall_mem_cons.mpr ⟨⟨hlow, hlt, hhigh⟩, ih h1 h2 h3⟩
  | deeper hd _ ih =>
    obtain ⟨h1, h2, h3⟩ := hd.deeper_sane
    exact List.forall_mem_cons.mpr ⟨⟨hlow, hlt, hhigh⟩, ih h1 h2 h3⟩

theorem Asks.depth_le {depth : Nat} {calls : List RootCall} (h : Asks depth alpha beta calls) :
    ∀ c ∈ calls, depth ≤ c.depth := by
  induction h with
  | none => simp
  | last => simp
  | again _ _ ih => exact List.forall_mem_cons.mpr ⟨le_rfl, ih⟩
  | deeper _ _ ih =>
    exact List.forall_mem_cons.mpr ⟨le_rfl, fun c hc => (Nat.le_succ _).trans (ih c hc)⟩

/-- The number of calls for a depth. -/
def callsAt (calls : List RootCall) (depth : Nat) : Nat := calls.countP (fun c => c.depth = depth)

theorem callsAt_cons_self (c : RootCall) (calls : List RootCall) :
    callsAt (c :: calls) c.depth = callsAt calls c.depth + 1 := by
  simp [callsAt]

theorem callsAt_cons_of_ne {c : RootCall} {d : Nat} (h : c.depth ≠ d) (calls : List RootCall) :
    callsAt (c :: calls) d = callsAt calls d := by
  simp [callsAt, h]

/-- One call, and one more for each side of the window that can still be opened. -/
theorem Asks.count_first {depth : Nat} {calls : List RootCall} (h : Asks depth alpha beta calls)
    (hlow : -infty ≤ alpha) (hlt : alpha < beta) (hhigh : beta ≤ infty) :
    callsAt calls depth ≤ openings alpha beta + 1 := by
  induction h with
  | none => simp [callsAt]
  | last => simp [callsAt]
  | @again depth alpha beta score node best s es alpha' beta' calls hd _ ih =>
    obtain ⟨h1, h2, h3, hless⟩ := hd.again_sane hlow hlt hhigh
    have hrest := ih h1 h2 h3
    have hhead := callsAt_cons_self ⟨depth, alpha, beta, score⟩ calls
    simp only at hhead
    omega
  | @deeper depth alpha beta score node best s es best' alpha' beta' calls hd hrest _ =>
    have hnone : callsAt calls depth = 0 := by
      refine List.countP_eq_zero.mpr fun c hc => ?_
      have hle := hrest.depth_le c hc
      simp only [decide_eq_true_eq]
      omega
    have hhead := callsAt_cons_self ⟨depth, alpha, beta, score⟩ calls
    simp only at hhead
    omega

theorem Asks.count_le {depth : Nat} {calls : List RootCall} (h : Asks depth alpha beta calls)
    (hlow : -infty ≤ alpha) (hlt : alpha < beta) (hhigh : beta ≤ infty) (d : Nat) :
    callsAt calls d ≤ againFuel := by
  have hfirst := h.count_first hlow hlt hhigh
  have hopen := openings_lt_againFuel alpha beta
  by_cases hd : depth = d
  · rw [← hd]
    omega
  induction h with
  | none => simp [callsAt]
  | last => simp [callsAt, hd]
  | again hdec hrest ih =>
    obtain ⟨h1, h2, h3, _⟩ := hdec.again_sane hlow hlt hhigh
    rw [callsAt_cons_of_ne hd]
    exact ih h1 h2 h3 (hrest.count_first h1 h2 h3) (openings_lt_againFuel _ _) hd
  | @deeper depth alpha beta score node best s es best' alpha' beta' calls hdec hrest ih =>
    obtain ⟨h1, h2, h3⟩ := hdec.deeper_sane
    have hnext := hrest.count_first h1 h2 h3
    have hopen' := openings_lt_againFuel alpha' beta'
    rw [callsAt_cons_of_ne hd]
    by_cases hd' : depth + 1 = d
    · rw [← hd']
      omega
    · exact ih h1 h2 h3 hnext hopen' hd'

end Windows

/-! ## The calls of a run -/

/-- What `search_root` returned, and for which windows. -/
def rootCalls (es : List Event) : List (Int × Int × Int) :=
  es.filterMap fun e => match e with
    | .returned .root alpha beta r _ => some (alpha, beta, r.score)
    | _ => none

theorem rootCalls_append (es es' : List Event) :
    rootCalls (es ++ es') = rootCalls es ++ rootCalls es' := by
  simp [rootCalls]

/-- Nothing of the trace is the return of a call of `search_root`. -/
def NoRoot (es : List Event) : Prop := rootCalls es = []

theorem noRoot_append {es es' : List Event} : NoRoot (es ++ es') ↔ NoRoot es ∧ NoRoot es' := by
  simp [NoRoot, rootCalls_append]

theorem noRoot_of_forall {es : List Event}
    (h : ∀ e ∈ es, ∀ alpha beta r s, e ≠ .returned .root alpha beta r s) : NoRoot es := by
  refine List.filterMap_eq_nil_iff.mpr fun e he => ?_
  have hne := h e he
  cases e with
  | returned c alpha beta r s =>
    cases c with
    | root => exact absurd rfl (hne alpha beta r s)
    | search => rfl
    | quiesce => rfl
  | _ => rfl

theorem Decides.noRoot {node : Node} {best : Move} {score alpha beta : Int} {s : Bool}
    {es : List Event} {d : Decision} (h : Decides node best score alpha beta s es d) : NoRoot es := by
  cases h with
  | low | high | failed => rfl
  | done | deeper => rfl

theorem noRoot_takeEvents (ls : MoveLoop) (mov : Move) (child : Node) (r : Ret) :
    NoRoot (ls.takeEvents mov child r) := by
  refine noRoot_of_forall fun e he alpha beta r' s => ?_
  rcases MoveLoop.mem_takeEvents he with ⟨_, rfl | rfl⟩ | rfl <;> exact nofun

theorem noRoot_historyEvents (node : Node) : NoRoot (historyEvents node) := by
  refine noRoot_of_forall fun e he alpha beta r s => ?_
  rw [mem_historyEvents he]
  exact nofun

theorem noRoot_killerEvents (node : Node) : NoRoot (killerEvents node) := by
  refine noRoot_of_forall fun e he alpha beta r s => ?_
  rw [mem_killerEvents he]
  exact nofun

/-- The part of the trace that a task leaves about `search_root`. -/
def RootTrace : Task → List Event → Result → Prop
  | .root _ _ alpha beta, es, .ret _ r => rootCalls es = [(alpha, beta, r.score)]
  | .root _ _ _ _, _, _ => True
  | _, es, _ => NoRoot es

section Runs

variable [Build] {env : SearchEnv} {hashed : Bool}

omit [Build] in
theorem rootTrace_call {k : LoopKind} {child : Node} {a b : Int} {es : List Event} {res : Result}
    (h : RootTrace (k.call child a b) es res) : NoRoot es := by
  cases k with
  | quiesce => exact h
  | search => exact h
  | root => exact h

/-- **A call of `search_root` returns once.** -/
theorem Runs.rootTrace {task : Task} {s : Bool} {es : List Event} {s' : Bool} {res : Result}
    (h : Runs env hashed task s es s' res) : RootTrace task es res := by
  induction h with
  | quiesce _ ih | search _ ih => exact noRoot_append.mpr ⟨ih, rfl⟩
  | quiesceHit | quiesceCut | searchDraw | searchHit | nullSkip | deepenSkip | loopEnd | illegal
  | skipped => exact rfl
  | quiesceLeaf => exact rfl
  | quiesceAbort _ _ _ _ _ ih | movesAbort _ _ ih | late _ ih | searchLeaf _ _ ih
  | searchNull _ _ _ ih | nullDone _ _ ih | deepenDone _ _ ih | loopCut _ _ ih | loopAbort _ _ ih
  | visitAbort _ _ _ ih => exact ih
  | quiesceDone _ _ _ _ _ ih => exact noRoot_append.mpr ⟨ih, rfl⟩
  | searchMain _ _ _ _ _ ih₁ ih₂ ih₃ =>
    exact noRoot_append.mpr ⟨ih₁, noRoot_append.mpr ⟨ih₂, ih₃⟩⟩
  | @movesDone node ply depth alpha beta s history n es s' ls n' _ _ _ ih =>
    exact noRoot_append.mpr ⟨ih, noRoot_append.mpr
      ⟨noRoot_historyEvents ls.node, noRoot_killerEvents ls.node⟩⟩
  | rootAbort _ _ ih =>
    have ih : NoRoot _ := ih
    show rootCalls _ = _
    rw [rootCalls_append, ih]
    rfl
  | rootDone _ _ _ ih =>
    have ih : NoRoot _ := ih
    show rootCalls _ = _
    rw [rootCalls_append, rootCalls_append, ih, noRoot_historyEvents]
    rfl
  | loopNext _ _ _ ih₁ ih₂ => exact noRoot_append.mpr ⟨ih₁, ih₂⟩
  | visitCut _ _ _ _ _ _ ih | visitNext _ _ _ _ _ _ ih =>
    exact noRoot_append.mpr ⟨ih, noRoot_takeEvents _ _ _ _⟩
  | scoutFull _ ih | scoutNull _ _ ih => exact rootTrace_call ih
  | scoutAgain _ _ _ _ ih₁ ih₂ =>
    exact noRoot_append.mpr ⟨rootTrace_call ih₁, rootTrace_call ih₂⟩

/-- The calls of an iteration, with those of the iterations after it. -/
theorem Iteration.asks {depth : Nat} {node : Node} {best : Move} {alpha beta : Int} {s : Bool}
    {es : List Event} {s' : Bool} {res : Node × Decision}
    (h : Iteration env hashed depth node best alpha beta s es s' res) {rest : List RootCall}
    (hrest : match res.2 with
      | .deeper _ a b => Asks (depth + 1) a b rest
      | _ => rest = []) :
    ∃ calls, rootCalls es = calls.map RootCall.key ∧ Asks depth alpha beta (calls ++ rest) := by
  induction h with
  | @stopped node best alpha beta s es s' n r hroot =>
    have hrest : rest = [] := hrest
    subst hrest
    exact ⟨[⟨depth, alpha, beta, r.score⟩], hroot.rootTrace, .last⟩
  | @again node best alpha beta s es₁ s₁ n r es₂ alpha' beta' es₃ s' res hroot _ hdec _ ih =>
    obtain ⟨calls, hcalls, hasks⟩ := ih hrest
    refine ⟨⟨depth, alpha, beta, r.score⟩ :: calls, ?_, .again hdec hasks⟩
    have hfirst : rootCalls es₁ = [(alpha, beta, r.score)] := hroot.rootTrace
    rw [rootCalls_append, rootCalls_append, hfirst, hdec.noRoot, hcalls]
    rfl
  | @decided node best alpha beta s es₁ s₁ n r es₂ d hroot _ hdec =>
    have hfirst : rootCalls es₁ = [(alpha, beta, r.score)] := hroot.rootTrace
    refine ⟨[⟨depth, alpha, beta, r.score⟩], ?_, ?_⟩
    · rw [rootCalls_append, hfirst, hdec.noRoot]
      rfl
    · cases d with
      | deeper best' a b => exact .deeper hdec hrest
      | stop best' =>
        have hrest : rest = [] := hrest
        subst hrest
        exact .last
      | again a b =>
        have hrest : rest = [] := hrest
        subst hrest
        exact .last

/-- **The calls of a run of `iterate`.** -/
theorem Iterates.asks {depth : Nat} {node : Node} {best : Move} {alpha beta : Int} {s : Bool}
    {es : List Event} {s' : Bool} {res : Node × Move}
    (h : Iterates env hashed depth node best alpha beta s es s' res) :
    ∃ calls, rootCalls es = calls.map RootCall.key ∧ Asks depth alpha beta calls := by
  induction h with
  | rest => exact ⟨[], rfl, .none⟩
  | stop hiter | again hiter =>
    obtain ⟨calls, hcalls, hasks⟩ := @Iteration.asks _ _ _ _ _ _ _ _ _ _ _ _ hiter [] rfl
    exact ⟨calls, hcalls, List.append_nil calls ▸ hasks⟩
  | late hiter =>
    obtain ⟨calls, hcalls, hasks⟩ := hiter.asks .none
    exact ⟨calls, hcalls, List.append_nil calls ▸ hasks⟩
  | deeper hiter _ ih =>
    obtain ⟨calls, hcalls, hasks⟩ := ih
    obtain ⟨first, hfirst, hall⟩ := hiter.asks hasks
    exact ⟨first ++ calls, by rw [rootCalls_append, hfirst, hcalls, List.map_append], hall⟩

/-- **The windows of iterative deepening are sane, and no depth takes more than three calls**:
whatever `search_root` returns, and so in every run of `iterate`, which ends. -/
theorem iterate_windows_sane (env : SearchEnv) {board : Board} {root : Node}
    (h : (Node.ofBoard board).initRoot = some root) {fuel depth : Nat} (hdepth : depth ≤ maxdepth)
    (hfuel : depth + maxply < fuel) {st : SearchState} (hst : st.nextSlot = 0) :
    (∀ calls, Asks 1 (-infty) infty calls →
      (∀ c ∈ calls, c.Sane) ∧ ∀ d, callsAt calls d ≤ 3) ∧
    ∃ p st' es calls, iterate env fuel depth root st = .done p st' ∧ st'.trace = st.trace ++ es ∧
      rootCalls es = calls.map RootCall.key ∧ Asks 1 (-infty) infty calls := by
  refine ⟨fun calls hasks => ⟨hasks.sane le_rfl (by decide) le_rfl,
    hasks.count_le le_rfl (by decide) le_rfl⟩, ?_⟩
  obtain ⟨p, st', hrun⟩ : ∃ p st', iterate env fuel depth root st = .done p st' :=
    iterate_returns h hdepth hfuel hst
  have href : Refines (observe true) (iterate env fuel depth root) _ :=
    iterate_refines fuel depth root
  obtain ⟨_, es, htrace, hiter⟩ := href st p st' hrun (Or.inl rfl)
  obtain ⟨calls, hcalls, hasks⟩ := hiter.asks
  exact ⟨p, st', es, calls, hrun, htrace, hcalls, hasks⟩

end Runs

/-- Three iterations from the opening position. -/
theorem iterate_windows_opening : ∃ b root, @Board.parseFen sampleBuild openingFen = .accepted b ∧
    @Node.initRoot (.ofBoard b) sampleBuild = some root ∧
      ∃ p st' es calls, @iterate sampleBuild (stillEnv true 0) 2000 3 root idle = .done p st' ∧
        st'.trace = idle.trace ++ es ∧ rootCalls es = calls.map RootCall.key ∧
          Asks 1 (-infty) infty calls := by
  let _ := sampleBuild
  obtain ⟨b, hb, hsim⟩ := parseFen_opening
  have hsound : b.Sound := hsim.sound sane_opening materialOk_opening
  have hlegal : Rules.opening.Legal (.move 12 28 .pawn none) := by decide +kernel
  obtain ⟨root, hroot⟩ := Node.exists_initRoot hsound ⟨_, hsim.abs_eq ▸ hlegal⟩
  exact ⟨b, root, hb, hroot,
    (iterate_windows_sane (stillEnv true 0) hroot (by decide) (by decide) rfl).2⟩

end Search

end HoiChess
