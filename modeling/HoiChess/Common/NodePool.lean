import HoiChess.Common.Iteration
import HoiChess.Common.Calls
import HoiChess.Common.SoundNode
import HoiChess.Chess.Exact
import HoiChess.Chess.Reached

/-!
# The pool of nodes is a stack

Every function of the search frees the nodes it allocates, on all of its paths, the one
allocated last first (`Tidy`); what runs while a child is in use frees the child and nothing
else (`Frees`).  So the pool is never larger than the ply, and with `MAXPLY` nodes it never
runs dry.
-/

namespace HoiChess

open Chess Rules Exec Brackets

namespace Search

/-- What `alloc` and `free` do. -/
def allocations : Observation SearchState Unit (Op (Board × List Ancestor)) where
  view _ := ()
  log st := st.pool
  inv _ := True

/-- The run uses the pool as `E` says and ends with a result as `Q` says. -/
def Pools {α : Type} (E : List (Op (Board × List Ancestor)) → Prop) (m : SearchM α) (Q : α → Prop) :
    Prop := Refines allocations m (fun _ es _ a => E es ∧ Q a)

/-- All nodes that are allocated are freed again. -/
abbrev Tidy {α : Type} (m : SearchM α) (Q : α → Prop) : Prop := Pools Balanced m Q

/-- So are they, and besides them the node that was allocated last before. -/
abbrev Frees {α : Type} (place : Board × List Ancestor) (m : SearchM α) (Q : α → Prop) : Prop :=
  Pools (Closes place) m Q

section Rules

variable {α β : Type} {m : SearchM α} {f : α → SearchM β} {E : List (Op (Board × List Ancestor)) → Prop}
  {place : Board × List Ancestor} {P : α → Prop} {Q : β → Prop}

theorem Pools.mono {P' : α → Prop} (h : Pools E m P) (hP : ∀ a, P a → P' a) : Pools E m P' :=
  Refines.mono h fun _ _ _ a ha => ⟨ha.1, hP a ha.2⟩

theorem Pools.ite {c : Prop} [Decidable c] {m' : SearchM α} (h : c → Pools E m P)
    (h' : ¬ c → Pools E m' P) : Pools E (if c then m else m') P := Refines.ite h h'

theorem Pools.bug : Pools E (Exec.bug : SearchM α) P := Refines.bug

theorem Pools.outOfFuel : Pools E (Exec.outOfFuel : SearchM α) P := Refines.outOfFuel

theorem Tidy.pure {a : α} (h : P a) : Tidy (Pure.pure a) P := by
  refine (Refines.pure a).mono ?_
  rintro _ es _ b ⟨_, rfl, rfl⟩
  exact ⟨balanced_nil, h⟩

theorem Tidy.bind (hm : Tidy m P) (hf : ∀ a, P a → Tidy (f a) Q) : Tidy (m >>= f) Q := by
  refine (Refines.bind_of hm (S := fun _ _ es _ b => Balanced es ∧ Q b) fun a ha => ?_).mono ?_
  · obtain ⟨_, _, _, _, ha⟩ := ha
    exact hf a ha
  · rintro _ es _ b ⟨a, _, es₁, es₂, rfl, ⟨h₁, _⟩, h₂, hb⟩
    exact ⟨h₁.append h₂, hb⟩

/-- Something else is done before the child is freed. -/
theorem Tidy.frees (hm : Tidy m P) (hf : ∀ a, P a → Frees place (f a) Q) : Frees place (m >>= f) Q := by
  refine (Refines.bind_of hm (S := fun _ _ es _ b => Closes place es ∧ Q b) fun a ha => ?_).mono ?_
  · obtain ⟨_, _, _, _, ha⟩ := ha
    exact hf a ha
  · rintro _ es _ b ⟨a, _, es₁, es₂, rfl, ⟨h₁, _⟩, h₂, hb⟩
    exact ⟨h₁.closes h₂, hb⟩

/-- Something else is done once the child has been freed. -/
theorem Frees.bind (hm : Frees place m P) (hf : ∀ a, P a → Tidy (f a) Q) : Frees place (m >>= f) Q := by
  refine (Refines.bind_of hm (S := fun _ _ es _ b => Balanced es ∧ Q b) fun a ha => ?_).mono ?_
  · obtain ⟨_, _, _, _, ha⟩ := ha
    exact hf a ha
  · rintro _ es _ b ⟨a, _, es₁, es₂, rfl, ⟨h₁, _⟩, h₂, hb⟩
    exact ⟨h₁.balanced h₂, hb⟩

/-- A change that is no use of the pool. -/
theorem Tidy.modify {g : SearchState → SearchState} (h : ∀ st, (g st).pool = st.pool) :
    Tidy (Exec.modify g) (fun _ => True) := by
  have hmodify : Refines allocations (Exec.modify g) (fun v es v' _ => v' = v ∧ es = []) :=
    Refines.modify (fun _ _ => trivial) (fun _ => rfl) h
  refine hmodify.mono ?_
  rintro _ es _ _ ⟨_, rfl⟩
  exact ⟨balanced_nil, trivial⟩

theorem Tidy.modify_bind {g : SearchState → SearchState} {f : Unit → SearchM β}
    (h : ∀ st, (g st).pool = st.pool) (hf : Tidy (f ()) Q) : Tidy (Exec.modify g >>= f) Q :=
  (Tidy.modify h).bind fun _ _ => hf

theorem Tidy.modify_frees {g : SearchState → SearchState} {f : Unit → SearchM β}
    (h : ∀ st, (g st).pool = st.pool) (hf : Frees place (f ()) Q) :
    Frees place (Exec.modify g >>= f) Q := (Tidy.modify h).frees fun _ _ => hf

theorem Tidy.get : Tidy (Exec.get : SearchM SearchState) (fun _ => True) := by
  intro st a st' h _
  obtain ⟨rfl, rfl⟩ := get_eq_done.mp h
  exact ⟨trivial, [], (List.append_nil _).symm, balanced_nil, trivial⟩

end Rules

section Primitives

variable (env : SearchEnv)

theorem tidy_emit (e : Event) : Tidy (emit e) (fun _ => True) := Tidy.modify fun _ => rfl

theorem tidy_tick : Tidy tick (fun _ => True) := by
  refine Tidy.get.bind fun _ _ => ?_
  exact Tidy.modify_bind (fun _ => rfl) (Tidy.pure trivial)

theorem tidy_readStop : Tidy (readStop env) (fun _ => True) := by
  refine tidy_tick.bind fun _ _ => ?_
  exact Tidy.modify_bind (fun _ => rfl) (Tidy.get.bind fun _ _ => Tidy.pure trivial)

theorem tidy_checkTime (force : Bool) : Tidy (checkTime env force) (fun _ => True) := by
  refine Tidy.get.bind fun st _ => .ite (fun _ => Tidy.pure trivial) fun _ => ?_
  refine tidy_tick.bind fun t _ => .ite (fun _ => Tidy.modify fun _ => rfl) fun _ => ?_
  refine tidy_tick.bind fun t _ => Tidy.modify_bind (fun st => ?_)
    (Tidy.modify_bind (fun _ => rfl) (tidy_tick.bind fun _ _ => Tidy.modify fun _ => rfl))
  split <;> rfl

theorem tidy_eval (board : Board) (alpha beta : Int) : Tidy (eval env board alpha beta) (fun _ => True) :=
  tidy_tick.bind fun _ _ => Tidy.pure trivial

theorem tidy_store (node : Node) (depth alpha beta score : Int) :
    Tidy (store node depth alpha beta score) (fun _ => True) :=
  Tidy.modify_bind (fun _ => rfl) (tidy_emit _)

theorem tidy_addHistory (node : Node) : Tidy (addHistory node) (fun _ => True) :=
  .ite (fun _ => Tidy.pure trivial) fun _ => Tidy.modify_bind (fun _ => rfl) (tidy_emit _)

theorem tidy_addKiller (node : Node) : Tidy (addKiller node) node.Frame :=
  .ite (fun _ => (tidy_emit _).bind fun _ _ => Tidy.pure (node.frame_addKiller _)) fun _ =>
    Tidy.pure (.refl node)

/-- `free` frees its node. -/
theorem free_frees (node : Node) : Frees node.place (free node) (fun _ => True) := by
  intro st a st' h _
  obtain rfl := modify_eq_done.mp h
  exact ⟨trivial, [.pop node.place], rfl, closes_pop _, trivial⟩

theorem frees_of_frame {node child : Node} (h : child.Frame node) :
    Frees child.place (free node) (fun _ => True) := by
  have hplace : node.place = child.place := Prod.ext h.board h.ancestors
  exact hplace ▸ free_frees node

section Tree

variable [Build]

/-- **What follows `make_move` has a child to free.** -/
theorem tidy_makeMove {β : Type} {f : Node → SearchM β} {Q : β → Prop} (node : Node) (mov : Move)
    (hf : ∀ slot, Frees (node.makeMove mov slot).place (f (node.makeMove mov slot)) Q) :
    Tidy (makeMove node mov >>= f) Q := by
  intro st b st' h _
  obtain ⟨child, st₁, hmake, hrest⟩ := bind_eq_done.mp h
  by_cases hn : st.nextSlot < maxply
  · have hrun : makeMove node mov st = .done (node.makeMove mov (st.slots st.nextSlot)) { st with
        nextSlot := st.nextSlot + 1
        pool := st.pool ++ [.push (node.makeMove mov (st.slots st.nextSlot)).place] } := by
      show (if st.nextSlot < maxply then _ else Exec.bug : SearchM Node) st = _
      rw [if_pos hn]
      rfl
    rw [hrun] at hmake
    cases hmake
    obtain ⟨_, es, hlog, hes, hb⟩ := hf _ _ b st' hrest trivial
    refine ⟨trivial, .push _ :: es, ?_, hes.push, hb⟩
    exact hlog.trans (List.append_assoc _ _ _)
  · have hbug : makeMove node mov st = .bug := by
      show (if st.nextSlot < maxply then _ else Exec.bug : SearchM Node) st = _
      rw [if_neg hn]
      rfl
    rw [hbug] at hmake
    cases hmake

theorem tidy_probe (node : Node) (depth alpha beta : Int) :
    Tidy (probe env node depth alpha beta) (fun p => node.Frame p.1) := by
  refine Tidy.get.bind fun st _ => Tidy.pure ?_
  obtain ⟨hashmv, pvline, h⟩ := probeHashtable_node env.failsoft st.hashtable node depth alpha beta
  rw [h]
  exact ⟨rfl, rfl, rfl, rfl⟩

theorem tidy_start (node : Node) : Tidy (start env node) node.Frame := by
  refine Tidy.get.bind fun st _ => ?_
  cases hs : node.start env.beyond st.histtable with
  | none => exact Pools.bug
  | some n => exact Tidy.pure (Node.frame_start hs)

end Tree

end Primitives

/-! ## The loop over the moves -/

/-- The node of a loop keeps its place. -/
def LoopStep.Frame (node : Node) : LoopStep → Prop
  | next ls | cut ls | abort ls => node.Frame ls.node

section Loops

variable {env : SearchEnv}

theorem tidy_updateBest (ls : MoveLoop) (mov : Move) (child : Node) (r : Ret) :
    Tidy (updateBest ls mov child r) (fun ls' => ls.node.Frame ls'.node) :=
  .ite (fun _ => (tidy_emit _).bind fun _ _ => (tidy_emit _).bind fun _ _ =>
    Tidy.pure (Node.continues_setBest _ mov child).toFrame) fun _ => Tidy.pure (.refl _)

theorem tidy_updateAlpha (ls : MoveLoop) (r : Ret) :
    Tidy (updateAlpha ls r) (fun ls' => ls.node.Frame ls'.node) :=
  .ite (fun _ => (tidy_emit _).bind fun _ _ => Tidy.pure (.refl _)) fun _ => Tidy.pure (.refl _)

/-- **The child is freed whether the search is aborted or not.** -/
theorem conclude_frees (ls : MoveLoop) (mov : Move) {place : Board × List Ancestor} (child : Node)
    (r : Ret) (beta : Int) {note : Node → Node} (hnote : ∀ node, Node.Frame node (note node))
    (hfree : Frees place (free child) (fun _ => True)) :
    Frees place (conclude env ls mov child r beta note) (LoopStep.Frame ls.node) := by
  have htaint : ls.node.Frame { ls.node with tainted := ls.node.tainted || r.aborted } :=
    ⟨rfl, rfl, rfl, rfl⟩
  refine (tidy_readStop env).frees fun stopped _ => .ite (fun _ => ?_) fun _ => ?_
  · exact hfree.bind fun _ _ => Tidy.pure htaint
  · refine (tidy_updateBest _ mov child r).frees fun ls₁ h₁ => hfree.bind fun _ _ =>
      (tidy_updateAlpha ls₁ r).bind fun ls₂ h₂ => ?_
    have h : ls.node.Frame ls₂.node := ((htaint.trans (hnote _)).trans h₁).trans h₂
    exact .ite (fun _ => Tidy.pure h) fun _ => Tidy.pure h

/-- A loop is tidy if its body is. -/
theorem tidy_moveLoop {visit : MoveLoop → Move → SearchM LoopStep}
    (hvisit : ∀ ls mov, Tidy (visit ls mov) (LoopStep.Frame ls.node)) (fuel : Nat) (ls : MoveLoop) :
    Tidy (moveLoop visit fuel ls) (fun p => ls.node.Frame p.1.node) := by
  induction fuel generalizing ls with
  | zero => exact Pools.outOfFuel
  | succ fuel ih =>
    have hpick : ls.node.Frame ls.node.pick.1 := (Node.keeps_pick _).toFrame
    refine .ite (fun _ => Tidy.pure hpick) fun _ => (hvisit _ _).bind fun st hst => ?_
    cases st with
    | next ls' =>
      have hst : ls.node.pick.1.Frame ls'.node := hst
      exact (ih ls').mono fun p hp => (hpick.trans hst).trans hp
    | cut ls' =>
      have hst : ls.node.pick.1.Frame ls'.node := hst
      exact Tidy.pure (hpick.trans hst)
    | abort ls' =>
      have hst : ls.node.pick.1.Frame ls'.node := hst
      exact Tidy.pure (hpick.trans hst)

end Loops

/-! ## The searching functions -/

section Searching

variable {env : SearchEnv} {rec : Node → Int → Int → SearchM (Node × Ret)}

/-- A search that is tidy for every node. -/
def CallsTidy (rec : Node → Int → Int → SearchM (Node × Ret)) : Prop :=
  ∀ child a b, Tidy (rec child a b) (fun p => child.Frame p.1)

theorem tidy_negated (hrec : CallsTidy rec) (child : Node) (a b : Int) :
    Tidy (negated rec child a b) (fun p => child.Frame p.1) :=
  (hrec child a b).bind fun _ hp => Tidy.pure hp

/-- A second search is one of the same child. -/
theorem tidy_scout (hrec : CallsTidy rec) (child : Node) (first : Bool) (alpha saveAlpha beta : Int) :
    Tidy (scout env rec child first alpha saveAlpha beta) (fun p => child.Frame p.1) := by
  refine .ite (fun _ => ?_) fun _ => tidy_negated hrec child _ _
  refine (tidy_negated hrec child _ _).bind fun p hp => .ite (fun _ => ?_) fun _ => Tidy.pure hp
  exact (tidy_negated hrec p.1 _ _).bind fun p' hp' => Tidy.pure (hp.trans hp')

theorem tidy_returning {m : SearchM (Node × Ret)} {P : Node × Ret → Prop} (h : Tidy m P)
    (caller : Caller) (alpha beta : Int) : Tidy (returning caller alpha beta m) P :=
  h.bind fun _ hp => Tidy.get.bind fun _ _ => (tidy_emit _).bind fun _ _ => Tidy.pure hp

variable [Build]

theorem tidy_visitQuiesce (hrec : CallsTidy rec) (beta : Int) (ls : MoveLoop) (mov : Move) :
    Tidy (visitQuiesce env rec beta ls mov) (LoopStep.Frame ls.node) := by
  refine tidy_makeMove ls.node mov fun slot => .ite (fun _ => ?_) fun _ => ?_
  · exact (free_frees _).bind fun _ _ => Tidy.pure (.refl _)
  · exact (tidy_negated hrec _ _ _).frees fun p hp => (tidy_checkTime env false).frees fun _ _ =>
      conclude_frees _ mov p.1 p.2 beta (fun _ => .refl _) (frees_of_frame hp)

theorem tidy_quiesceMoves (hrec : CallsTidy rec) (node : Node) (ply : Nat) (alpha beta score : Int) :
    Tidy (quiesceMoves env rec node ply alpha beta score) (fun p => node.Frame p.1) := by
  have hframe : node.Frame { node with type := .quiesce } := ⟨rfl, rfl, rfl, rfl⟩
  refine (tidy_start env _).bind fun n hn => (tidy_moveLoop (tidy_visitQuiesce hrec beta) _ _).bind ?_
  rintro ⟨ls, aborted⟩ hls
  have hls : node.Frame ls.node := (hframe.trans hn).trans hls
  refine .ite (fun _ => Tidy.pure hls) fun _ => ?_
  exact (tidy_store ls.node 0 alpha beta _).bind fun _ _ => Tidy.pure hls

theorem tidy_quiescenceSearch (fuel : Nat) (node : Node) (ply : Nat) (alpha beta : Int) :
    Tidy (quiescenceSearch env fuel node ply alpha beta) (fun p => node.Frame p.1) := by
  induction fuel generalizing node ply alpha beta with
  | zero => exact Pools.outOfFuel
  | succ fuel ih =>
    refine tidy_returning ?_ .quiesce alpha beta
    refine Tidy.modify_bind (fun _ => rfl) ((tidy_probe env node 0 alpha beta).bind ?_)
    rintro ⟨n, hit⟩ hframe
    cases hit with
    | some score => exact Tidy.pure hframe
    | none =>
      refine (tidy_eval env n.board alpha beta).bind fun score _ => .ite (fun _ => ?_) fun _ =>
        .ite (fun _ => ?_) fun _ => ?_
      · exact Tidy.pure hframe
      · exact Tidy.get.bind fun st _ => (tidy_emit _).bind fun _ _ => Tidy.pure hframe
      · exact (tidy_quiesceMoves (fun child a b => ih child (ply + 1) a b) n ply alpha beta score).mono
          fun p hp => hframe.trans hp

theorem tidy_visitSearch (hrec : CallsTidy rec) (fprune : Bool) (saveAlpha beta : Int)
    (ls : MoveLoop) (mov : Move) :
    Tidy (visitSearch env rec fprune saveAlpha beta ls mov) (LoopStep.Frame ls.node) := by
  refine tidy_makeMove ls.node mov fun slot => .ite (fun _ => ?_) fun _ => .ite (fun _ => ?_) fun _ => ?_
  · exact (free_frees _).bind fun _ _ => Tidy.pure (.refl _)
  · exact (free_frees _).bind fun _ _ => Tidy.pure (Node.Frame.refl ls.node)
  · exact (tidy_scout hrec _ _ _ _ _).frees fun p hp => (tidy_checkTime env false).frees fun _ _ =>
      conclude_frees _ mov p.1 p.2 beta (fun _ => .refl _) (frees_of_frame hp)

/-- The search below a node, one ply on, for any depth. -/
def SearchesTidy (rec : Node → Nat → Int → Int → Int → SearchM (Node × Ret)) : Prop :=
  ∀ ply depth, CallsTidy fun child => rec child ply depth

variable {recs : Node → Nat → Int → Int → Int → SearchM (Node × Ret)}

theorem tidy_searchMoves (hrec : SearchesTidy recs) (node : Node) (ply : Nat) (depth alpha beta : Int) :
    Tidy (searchMoves env recs node ply depth alpha beta) (fun p => node.Frame p.1) := by
  have hframe : node.Frame { node with type := .fullwidth, historytable := some node.board.side } :=
    ⟨rfl, rfl, rfl, rfl⟩
  refine (tidy_start env _).bind fun n hn => (tidy_moveLoop
    (tidy_visitSearch (hrec (ply + 1) (mainDepth node depth alpha - 1)) _ alpha beta) _ _).bind ?_
  rintro ⟨ls, aborted⟩ hls
  have hls : node.Frame ls.node := (hframe.trans hn).trans hls
  refine .ite (fun _ => Tidy.pure hls) fun _ => ?_
  exact (tidy_emit _).bind fun _ _ => (tidy_store ls.node _ alpha beta _).bind fun _ _ =>
    (tidy_addHistory ls.node).bind fun _ _ => (tidy_addKiller ls.node).bind fun n' hn' =>
      Tidy.pure (hls.trans hn')

theorem tidy_nullMove (hrec : SearchesTidy recs) (node : Node) (ply : Nat) (depth beta : Int) :
    Tidy (nullMove env recs node ply depth beta) (fun _ => True) := by
  unfold nullMove
  split
  · exact Pools.bug
  · refine .ite (fun _ => tidy_makeMove node .null fun slot => ?_) fun _ => Tidy.pure trivial
    refine (hrec (ply + 1) (depth - 2 - 1) _ _ _).frees fun p hp => (frees_of_frame hp).bind fun _ _ => ?_
    exact .ite (fun _ => Tidy.pure trivial) fun _ => Tidy.pure trivial

omit [Build] in
theorem tidy_deepen (hrec : SearchesTidy recs) (node : Node) (ply : Nat) (depth alpha beta : Int) :
    Tidy (deepen recs node ply depth alpha beta) node.Frame :=
  .ite (fun _ => (hrec ply (depth - 2) node alpha beta).bind fun _ hp =>
    Tidy.pure (hp.trans ⟨rfl, rfl, rfl, rfl⟩)) fun _ => Tidy.pure (.refl node)

theorem tidy_search (fuel : Nat) (node : Node) (ply : Nat) (depth alpha beta : Int) :
    Tidy (search env fuel node ply depth alpha beta) (fun p => node.Frame p.1) := by
  induction fuel generalizing node ply depth alpha beta with
  | zero => exact Pools.outOfFuel
  | succ fuel ih =>
    have hrec : SearchesTidy (search env fuel) := fun ply depth child a b => ih child ply depth a b
    refine tidy_returning (.ite (fun _ => tidy_quiescenceSearch fuel node ply alpha beta) fun _ => ?_)
      .search alpha beta
    cases hdraw : node.isDraw with
    | some drawscore => exact Tidy.pure (.refl node)
    | none =>
      refine Tidy.modify_bind (fun _ => rfl) ((tidy_probe env node depth alpha beta).bind ?_)
      rintro ⟨n, hit⟩ hframe
      cases hit with
      | some score => exact Tidy.pure hframe
      | none =>
        refine (tidy_nullMove hrec n ply depth beta).bind fun cut _ => ?_
        cases cut with
        | some score => exact Tidy.pure hframe
        | none =>
          refine (tidy_deepen hrec n ply depth alpha beta).bind fun n' hn' => ?_
          exact (tidy_searchMoves hrec n' ply depth alpha beta).mono fun p hp =>
            (hframe.trans hn').trans hp

theorem tidy_visitRoot (hrec : CallsTidy rec) (saveAlpha beta : Int) (ls : MoveLoop) (mov : Move) :
    Tidy (visitRoot env rec saveAlpha beta ls mov) (LoopStep.Frame ls.node) := by
  refine tidy_makeMove ls.node mov fun slot => .ite (fun _ => Pools.bug) fun _ => ?_
  refine Tidy.get.frees fun st _ => (tidy_checkTime env true).frees fun _ _ => ?_
  have hline : (ls.node.makeMove mov slot).Frame
      (withLine st.ply1PvlineMap mov (ls.node.makeMove mov slot)) := by
    unfold withLine
    split <;> exact ⟨rfl, rfl, rfl, rfl⟩
  refine (tidy_scout hrec _ _ _ _ _).frees fun p hp => Tidy.modify_frees (fun _ => rfl) ?_
  exact conclude_frees _ mov p.1 p.2 beta (fun _ => (Node.continues_setCurrentScore _ _).toFrame)
    (frees_of_frame (hline.trans hp))

theorem tidy_searchRoot (fuel : Nat) (node : Node) (depth alpha beta : Int) :
    Tidy (searchRoot env fuel node depth alpha beta) (fun _ => True) := by
  have hrec : CallsTidy (fun child => search env fuel child 1 (depth - 1)) :=
    fun child a b => tidy_search fuel child 1 (depth - 1) a b
  refine tidy_returning ?_ .root alpha beta
  refine (tidy_start env node).bind fun n _ => (tidy_moveLoop (tidy_visitRoot hrec alpha beta) _ _).bind ?_
  rintro ⟨ls, aborted⟩ _
  exact .ite (fun _ => Tidy.pure trivial) fun _ =>
    (tidy_addHistory ls.node).bind fun _ _ => Tidy.pure trivial

/-- **Each call frees what it allocates.** -/
theorem Call.tidy (call : Call) (fuel : Nat) (alpha beta : Int) :
    Tidy (call.run env fuel alpha beta) (fun _ => True) := by
  cases call with
  | root node depth => exact tidy_searchRoot fuel node depth alpha beta
  | search node ply depth =>
    exact (tidy_search fuel node ply depth alpha beta).mono fun _ _ => trivial
  | quiesce node ply =>
    exact (tidy_quiescenceSearch fuel node ply alpha beta).mono fun _ _ => trivial

end Searching

/-! ## Iterative deepening -/

section Deepening

variable [Build] {env : SearchEnv}

omit [Build] in
theorem tidy_afterIteration (node : Node) (best : Move) (score alpha beta : Int) :
    Tidy (afterIteration node best score alpha beta) (fun _ => True) := by
  refine Tidy.get.bind fun st _ => .ite (fun _ => Tidy.pure trivial) fun _ =>
    .ite (fun _ => Tidy.pure trivial) fun _ => (tidy_emit _).bind fun _ _ => ?_
  exact .ite (fun _ => Tidy.pure trivial) fun _ =>
    .ite (fun _ => Tidy.pure trivial) fun _ => Tidy.pure trivial

theorem tidy_iteration (fuel depth k : Nat) (node : Node) (best : Move) (alpha beta : Int) :
    Tidy (iteration env fuel depth k node best alpha beta) (fun _ => True) := by
  induction k generalizing node alpha beta with
  | zero => exact Pools.outOfFuel
  | succ k ih =>
    refine (tidy_searchRoot fuel node depth alpha beta).bind fun p _ =>
      (tidy_checkTime env true).bind fun _ _ => (tidy_readStop env).bind fun stopped _ =>
        .ite (fun _ => Tidy.pure trivial) fun _ =>
          (tidy_afterIteration p.1 best p.2.score alpha beta).bind fun d _ => ?_
    cases d with
    | stop best => exact Tidy.pure trivial
    | deeper best a b => exact Tidy.pure trivial
    | again a b => exact ih p.1 a b

theorem tidy_iterateLoop (fuel rootdepth n : Nat) (node : Node) (best : Move) (alpha beta : Int) :
    Tidy (iterateLoop env fuel rootdepth n node best alpha beta) (fun _ => True) := by
  induction n generalizing rootdepth node best alpha beta with
  | zero => exact Tidy.pure trivial
  | succ n ih =>
    refine (tidy_iteration fuel rootdepth againFuel node best alpha beta).bind ?_
    rintro ⟨node', d⟩ _
    cases d with
    | stop best => exact Tidy.pure trivial
    | again a b => exact Tidy.pure trivial
    | deeper best a b =>
      exact tidy_tick.bind fun t _ => .ite (fun _ => Tidy.pure trivial) fun _ => ih _ _ _ _ _

theorem tidy_iterate (fuel depth : Nat) (node : Node) :
    Tidy (iterate env fuel depth node) (fun _ => True) :=
  Tidy.modify_bind (fun _ => rfl) (tidy_iterateLoop fuel 1 depth node _ _ _)

/-- Between the two states the pool was used as a stack: the next pointer is where it was, and
each node that was freed was the one allocated last. -/
structure UsesStack (st st' : SearchState) : Prop where
  nextSlot : st'.nextSlot = st.nextSlot
  balanced : ∃ es, st'.pool = st.pool ++ es ∧ Balanced es ∧
    ∀ es₁ place es₂, es = es₁ ++ .pop place :: es₂ → ∃ rest, Replays [] es₁ (place :: rest)

omit [Build] in
theorem Tidy.usesStack {α : Type} {m : SearchM α} {Q : α → Prop} (h : Tidy m Q) {st st' : SearchState}
    {a : α} (hm : m st = .done a st') (hnext : st'.nextSlot = st.nextSlot) : UsesStack st st' := by
  obtain ⟨_, es, hlog, hes, _⟩ := h st a st' hm trivial
  refine ⟨hnext, es, hlog, hes, ?_⟩
  rintro es₁ place es₂ rfl
  exact (hes []).pop_top

/-- **The pool of nodes is a stack and never runs dry**: for each call of the searching functions,
and for iterative deepening up to `MAXDEPTH`. -/
theorem nodes_stack (env : SearchEnv) (st : SearchState) {fuel : Nat} :
    (∀ (call : Call) (alpha beta : Int), call.levels + maxply + 2 ≤ fuel →
      call.Returns env fuel alpha beta st ∧
        ∀ p st', call.run env fuel alpha beta st = .done p st' → UsesStack st st') ∧
    ∀ (board : Board) (root : Node) (depth : Nat), (Node.ofBoard board).initRoot = some root →
      depth ≤ maxdepth → depth + maxply < fuel → st.nextSlot = 0 →
        ∃ p st', iterate env fuel depth root st = .done p st' ∧ UsesStack st st' := by
  constructor
  · intro call alpha beta hfuel
    refine ⟨call.returns hfuel st, fun p st' hrun => (call.tidy fuel alpha beta).usesStack hrun ?_⟩
    exact (Settles.of_done (call.uses hfuel st st rfl) hrun).1
  · intro board root depth hroot hdepth hfuel hst
    have hmax : maxdepth = 900 := rfl
    have hply : maxply = 1024 := rfl
    have huses : Uses True (iterate env fuel depth root) 0 0 (fun _ => True) :=
      iterate_uses (by omega) fun _ => ⟨rfl, by omega, rootFits_initRoot hroot⟩
    obtain ⟨p, st', hrun, hnext, _⟩ := (huses st hst).exists_done trivial
    exact ⟨p, st', hrun, (tidy_iterate fuel depth root).usesStack hrun (hnext.trans hst.symm)⟩

end Deepening

/-- Three iterations from the opening position. -/
theorem nodes_stack_opening : ∃ b root, @Board.parseFen sampleBuild openingFen = .accepted b ∧
    @Node.initRoot (.ofBoard b) sampleBuild = some root ∧
      ∃ p st', @iterate sampleBuild (stillEnv true 0) 2000 3 root idle = .done p st' ∧
        UsesStack idle st' := by
  let _ := sampleBuild
  obtain ⟨b, hb, hsim⟩ := parseFen_opening
  have hsound : b.Sound := hsim.sound sane_opening materialOk_opening
  have hlegal : Rules.opening.Legal (.move 12 28 .pawn none) := by decide +kernel
  obtain ⟨root, hroot⟩ := Node.exists_initRoot hsound ⟨_, hsim.abs_eq ▸ hlegal⟩
  exact ⟨b, root, hb, hroot, (@nodes_stack _ (stillEnv true 0) idle 2000).2 b root 3 hroot
    (by decide) (by decide) rfl⟩

end Search

end HoiChess
