import HoiChess.Common.Search

/-!
# The search returns

Every call allocates its children in the node pool and frees them, so that the pool bounds
the plies, and the depth bounds the deepening of a node.  `search_uses` turns this into
fuel, and shows that the pool suffices where ply and depth stay below `MAXPLY`.
-/

namespace HoiChess

open Chess Exec

namespace Search

/-- With `n` nodes in use, the run settles with `n'` nodes in use and a result as `Q` says. -/
def Uses {α : Type} (ok : Prop) (m : SearchM α) (n n' : Nat) (Q : α → Prop) : Prop :=
  ∀ st, st.nextSlot = n → Settles ok m st (fun a st' => st'.nextSlot = n' ∧ Q a)

section Rules

variable {ok : Prop} {α β : Type} {m : SearchM α} {f : α → SearchM β} {n n₁ n' : Nat}
  {P : α → Prop} {Q : β → Prop}

theorem Uses.bind (hm : Uses ok m n n₁ P) (hf : ∀ a, P a → Uses ok (f a) n₁ n' Q) :
    Uses ok (m >>= f) n n' Q := by
  intro st hst
  refine (hm st hst).bind ?_
  rintro a st' ⟨hst', ha⟩
  exact hf a ha st' hst'

theorem Uses.pure {a : α} (h : P a) : Uses ok (Pure.pure a) n n P := fun _ hst => ⟨hst, h⟩

theorem Uses.mono {P' : α → Prop} (h : Uses ok m n n' P) (hP : ∀ a, P a → P' a) :
    Uses ok m n n' P' := fun st hst => (h st hst).mono fun a _ ha => ⟨ha.1, hP a ha.2⟩

theorem Uses.bug (h : ¬ ok) : Uses ok (Exec.bug : SearchM α) n n' P := fun _ _ => Settles.bug h

theorem Uses.ite {c : Prop} [Decidable c] {m' : SearchM α} (h : c → Uses ok m n n' P)
    (h' : ¬ c → Uses ok m' n n' P) : Uses ok (if c then m else m') n n' P := by
  split
  · exact h ‹_›
  · exact h' ‹_›

/-- A change that leaves the pool alone. -/
theorem Uses.modify {g : SearchState → SearchState} (h : ∀ st, (g st).nextSlot = st.nextSlot) :
    Uses ok (Exec.modify g) n n (fun _ => True) := by
  rintro st rfl
  exact Settles.modify ⟨h st, trivial⟩

theorem Uses.modify_bind {g : SearchState → SearchState} {f : Unit → SearchM β}
    (h : ∀ st, (g st).nextSlot = st.nextSlot) (hf : Uses ok (f ()) n n' Q) :
    Uses ok (Exec.modify g >>= f) n n' Q := (Uses.modify h).bind fun _ _ => hf

theorem Uses.get : Uses ok (Exec.get : SearchM SearchState) n n (fun _ => True) :=
  fun _ hst => Settles.get ⟨hst, trivial⟩

end Rules

section Primitives

variable {ok : Prop} {n : Nat} (env : SearchEnv)

theorem emit_uses (e : Event) : Uses ok (emit e) n n (fun _ => True) := Uses.modify fun _ => rfl

theorem tick_uses : Uses ok tick n n (fun _ => True) := by
  refine Uses.get.bind fun _ _ => ?_
  exact Uses.modify_bind (fun _ => rfl) (Uses.pure trivial)

theorem readStop_uses : Uses ok (readStop env) n n (fun _ => True) := by
  refine tick_uses.bind fun _ _ => ?_
  exact Uses.modify_bind (fun _ => rfl) (Uses.get.bind fun _ _ => Uses.pure trivial)

theorem checkTime_uses (force : Bool) : Uses ok (checkTime env force) n n (fun _ => True) := by
  refine Uses.get.bind fun st _ => .ite (fun _ => Uses.pure trivial) fun _ => ?_
  refine tick_uses.bind fun t _ => .ite (fun _ => Uses.modify fun _ => rfl) fun _ => ?_
  refine tick_uses.bind fun t _ => Uses.modify_bind (fun st => ?_)
    (Uses.modify_bind (fun _ => rfl) (tick_uses.bind fun _ _ => Uses.modify fun _ => rfl))
  split <;> rfl

theorem eval_uses (board : Board) (alpha beta : Int) :
    Uses ok (eval env board alpha beta) n n (fun _ => True) :=
  tick_uses.bind fun _ _ => Uses.pure trivial

theorem free_uses (node : Node) : Uses ok (free node) (n + 1) n (fun _ => True) := by
  rintro st hst
  refine Settles.modify ⟨?_, trivial⟩
  show st.nextSlot - 1 = n
  rw [hst, Nat.add_sub_cancel]

theorem store_uses (node : Node) (depth alpha beta score : Int) :
    Uses ok (store node depth alpha beta score) n n (fun _ => True) :=
  Uses.modify_bind (fun _ => rfl) (emit_uses _)

theorem addHistory_uses (node : Node) : Uses ok (addHistory node) n n (fun _ => True) :=
  .ite (fun _ => Uses.pure trivial) fun _ => Uses.modify_bind (fun _ => rfl) (emit_uses _)

theorem addKiller_uses (node : Node) : Uses ok (addKiller node) n n (Node.Frame node) :=
  .ite (fun _ => (emit_uses _).bind fun _ _ => Uses.pure (node.frame_addKiller _)) fun _ =>
    Uses.pure (.refl node)

section Tree

variable [Build]

/-- A child is allocated if there is a node left. -/
theorem makeMove_uses (node : Node) (mov : Move) (h : ok → n < maxply) :
    Uses ok (makeMove node mov) n (n + 1)
      (fun child => n < maxply ∧ ∃ slot, child = node.makeMove mov slot) := by
  rintro st rfl
  have hstep : makeMove node mov st = if st.nextSlot < maxply then
      .done (node.makeMove mov (st.slots st.nextSlot)) { st with
        nextSlot := st.nextSlot + 1
        pool := st.pool ++ [.push (node.makeMove mov (st.slots st.nextSlot)).place] }
      else .bug := by
    show (if st.nextSlot < maxply then _ else Exec.bug : SearchM Node) st = _
    split <;> rfl
  unfold Settles
  rw [hstep]
  by_cases hn : st.nextSlot < maxply
  · rw [if_pos hn]
    exact ⟨rfl, hn, _, rfl⟩
  · rw [if_neg hn]
    exact fun hok => hn (h hok)

theorem probe_uses (node : Node) (depth alpha beta : Int) :
    Uses ok (probe env node depth alpha beta) n n (fun p => Node.Frame node p.1) := by
  refine Uses.get.bind fun st _ => Uses.pure ?_
  obtain ⟨hashmv, pvline, h⟩ := probeHashtable_node env.failsoft st.hashtable node depth alpha beta
  rw [h]
  exact ⟨rfl, rfl, rfl, rfl⟩

/-- `first()` meets no bug where it has something to do. -/
theorem start_uses {node : Node} (h : ok → ∀ history, ∃ n, node.start env.beyond history = some n) :
    Uses ok (start env node) n n (fun n => ∃ history, node.start env.beyond history = some n) := by
  refine Uses.get.bind fun st _ => ?_
  cases hs : node.start env.beyond st.histtable with
  | none =>
    refine Uses.bug fun hok => ?_
    obtain ⟨n, hn⟩ := h hok st.histtable
    rw [hs] at hn
    cases hn
  | some n => exact Uses.pure ⟨_, hs⟩

end Tree

end Primitives

/-! ## The loop over the moves -/

/-- A step of a loop leaves the node as `Node.Continues` says. -/
def LoopStep.Continues (node : Node) : LoopStep → Prop
  | next ls | cut ls | abort ls => node.Continues ls.node

section Loops

variable {ok : Prop} {n : Nat} {env : SearchEnv}

theorem updateBest_uses (ls : MoveLoop) (mov : Move) (child : Node) (r : Ret) :
    Uses ok (updateBest ls mov child r) n n (fun ls' => ls.node.Continues ls'.node) := by
  refine .ite (fun _ => ?_) fun _ => Uses.pure (.refl _)
  exact (emit_uses _).bind fun _ _ => (emit_uses _).bind fun _ _ =>
    Uses.pure (Node.continues_setBest _ mov child)

theorem updateAlpha_uses (ls : MoveLoop) (r : Ret) :
    Uses ok (updateAlpha ls r) n n (fun ls' => ls.node.Continues ls'.node) :=
  .ite (fun _ => (emit_uses _).bind fun _ _ => Uses.pure (.refl _)) fun _ => Uses.pure (.refl _)

theorem conclude_uses (ls : MoveLoop) (mov : Move) (child : Node) (r : Ret) (beta : Int)
    {note : Node → Node} (hnote : ∀ node, Node.Continues node (note node)) :
    Uses ok (conclude env ls mov child r beta note) (n + 1) n (LoopStep.Continues ls.node) := by
  have htaint : ls.node.Continues { ls.node with tainted := ls.node.tainted || r.aborted } :=
    ⟨⟨rfl, rfl, rfl, rfl⟩, rfl, rfl, rfl⟩
  refine (readStop_uses env).bind fun stopped _ => .ite (fun _ => ?_) fun _ => ?_
  · exact (free_uses child).bind fun _ _ => Uses.pure htaint
  · refine (updateBest_uses _ mov child r).bind fun ls₁ h₁ => (free_uses child).bind fun _ _ =>
      (updateAlpha_uses ls₁ r).bind fun ls₂ h₂ => ?_
    have h : ls.node.Continues ls₂.node := ((htaint.trans (hnote _)).trans h₁).trans h₂
    exact .ite (fun _ => Uses.pure h) fun _ => Uses.pure h

/-- A loop over moves that all satisfy `M` ends: each step uses up a move. -/
theorem moveLoop_uses {visit : MoveLoop → Move → SearchM LoopStep} {M : Move → Prop} {node : Node}
    (hvisit : ∀ ls mov, node.Frame ls.node → M mov →
      Uses ok (visit ls mov) n n (LoopStep.Continues ls.node)) (fuel : Nat) (ls : MoveLoop)
    (hls : node.Keeps ls.node) (hM : ∀ mov ∈ ls.node.todo, M mov) (hfuel : ls.node.todo.length < fuel) :
    Uses ok (moveLoop visit fuel ls) n n (fun p => node.Keeps p.1.node) := by
  induction fuel generalizing ls with
  | zero => exact absurd hfuel (Nat.not_lt_zero _)
  | succ fuel ih =>
    have hpick : node.Keeps ls.node.pick.1 := hls.trans (Node.keeps_pick _)
    refine .ite (fun _ => Uses.pure hpick) fun hmov => ?_
    have hperm := Node.todo_pick hmov
    refine (hvisit _ _ hpick.toFrame (hM _ (hperm.mem_iff.mpr List.mem_cons_self))).bind fun st hst => ?_
    cases st with
    | next ls' =>
      have hst : ls.node.pick.1.Continues ls'.node := hst
      refine ih ls' (hpick.trans hst.keeps) ?_ ?_
      · intro mov h
        rw [hst.todo] at h
        exact hM mov (hperm.mem_iff.mpr (List.mem_cons_of_mem _ h))
      · rw [hst.todo]
        have := hperm.length_eq
        rw [List.length_cons] at this
        omega
    | cut ls' =>
      have hst : ls.node.pick.1.Continues ls'.node := hst
      exact Uses.pure (hpick.trans hst.keeps)
    | abort ls' =>
      have hst : ls.node.pick.1.Continues ls'.node := hst
      exact Uses.pure (hpick.trans hst.keeps)

theorem todo_lt_loopFuel (node : Node) : node.todo.length < loopFuel :=
  Nat.lt_succ_of_le node.length_todo_le

end Loops

/-! ## The searching functions -/

section Calls

variable {ok : Prop} {n : Nat} {rec : Node → Int → Int → SearchM (Node × Ret)}

/-- A search that can be called for every node with a parent. -/
def CallsUse (ok : Prop) (rec : Node → Int → Int → SearchM (Node × Ret)) (n : Nat) : Prop :=
  ∀ child : Node, child.ancestors ≠ [] → ∀ a b,
    Uses ok (rec child a b) n n (fun p => child.Frame p.1)

theorem negated_uses (hrec : CallsUse ok rec n) {child : Node} (hchild : child.ancestors ≠ [])
    (a b : Int) : Uses ok (negated rec child a b) n n (fun p => child.Frame p.1) :=
  (hrec child hchild a b).bind fun _ hp => Uses.pure hp

theorem scout_uses (env : SearchEnv) (hrec : CallsUse ok rec n) {child : Node}
    (hchild : child.ancestors ≠ []) (first : Bool) (alpha saveAlpha beta : Int) :
    Uses ok (scout env rec child first alpha saveAlpha beta) n n (fun _ => True) := by
  refine .ite (fun _ => ?_) fun _ => (negated_uses hrec hchild _ _).mono fun _ _ => trivial
  refine (negated_uses hrec hchild _ _).bind fun p hp =>
    .ite (fun _ => ?_) fun _ => Uses.pure trivial
  have hagain : p.1.ancestors ≠ [] := by
    rw [hp.ancestors]
    exact hchild
  exact (negated_uses hrec hagain _ _).bind fun _ _ => Uses.pure trivial

end Calls

theorem returning_uses {ok : Prop} {n : Nat} {m : SearchM (Node × Ret)} {P : Node × Ret → Prop}
    (h : Uses ok m n n P) (caller : Caller) (alpha beta : Int) :
    Uses ok (returning caller alpha beta m) n n P :=
  h.bind fun _ hp => Uses.get.bind fun _ _ => (emit_uses _).bind fun _ _ => Uses.pure hp

theorem mainDepth_le (node : Node) (depth alpha : Int) : mainDepth node depth alpha ≤ depth := by
  unfold mainDepth razorDepth
  split <;> split <;> omega

section Searching

variable [Build] {ok : Prop} {n : Nat} {env : SearchEnv}

theorem visitQuiesce_uses {rec : Node → Int → Int → SearchM (Node × Ret)} (hn : ok → n < maxply)
    (hrec : n < maxply → CallsUse ok rec (n + 1))
    (beta : Int) (ls : MoveLoop) (mov : Move) :
    Uses ok (visitQuiesce env rec beta ls mov) n n (LoopStep.Continues ls.node) := by
  refine (makeMove_uses ls.node mov hn).bind ?_
  rintro child ⟨hlt, slot, rfl⟩
  refine .ite (fun _ => ?_) fun _ => ?_
  · exact (free_uses _).bind fun _ _ => Uses.pure (.refl _)
  · exact (negated_uses (hrec hlt) (List.cons_ne_nil _ _) _ _).bind fun p _ => (checkTime_uses env false).bind
      fun _ _ => conclude_uses _ mov p.1 p.2 beta fun _ => .refl _

theorem quiesceMoves_uses {rec : Node → Int → Int → SearchM (Node × Ret)} (hn : ok → n < maxply)
    (hrec : n < maxply → CallsUse ok rec (n + 1))
    (node : Node) (ply : Nat) (alpha beta score : Int) :
    Uses ok (quiesceMoves env rec node ply alpha beta score) n n (fun p => node.Frame p.1) := by
  have hframe : node.Frame { node with type := .quiesce } := ⟨rfl, rfl, rfl, rfl⟩
  refine (start_uses env fun _ => Node.start_isSome (Or.inr rfl) env.beyond).bind ?_
  rintro n' ⟨history, hstart⟩
  refine (moveLoop_uses (M := fun _ => True)
    (fun ls mov _ _ => visitQuiesce_uses hn hrec beta ls mov) loopFuel _
    (.refl n') (fun _ _ => trivial) (todo_lt_loopFuel n')).bind ?_
  rintro ⟨ls, aborted⟩ hkeeps
  have hls := (hframe.trans (Node.frame_start hstart)).trans hkeeps.toFrame
  refine .ite (fun _ => Uses.pure hls) fun _ => ?_
  exact (store_uses ls.node 0 alpha beta _).bind fun _ _ => Uses.pure hls

/-- **Quiescence search needs no more fuel than there are nodes left.** -/
theorem quiescenceSearch_uses {fuel ply : Nat} (hfuel : maxply - n < fuel)
    (hok : ok → n ≤ ply ∧ ply < maxply) (node : Node) (alpha beta : Int) :
    Uses ok (quiescenceSearch env fuel node ply alpha beta) n n (fun p => node.Frame p.1) := by
  induction fuel generalizing n ply node alpha beta with
  | zero => exact absurd hfuel (Nat.not_lt_zero _)
  | succ fuel ih =>
    have hn : ok → n < maxply := fun h => lt_of_le_of_lt (hok h).1 (hok h).2
    refine returning_uses ?_ .quiesce alpha beta
    refine Uses.modify_bind (fun _ => rfl) ((probe_uses env node 0 alpha beta).bind ?_)
    rintro ⟨n₁, hit⟩ hframe
    cases hit with
    | some score => exact Uses.pure hframe
    | none =>
      refine (eval_uses env n₁.board alpha beta).bind fun score _ => .ite (fun _ => ?_) fun _ =>
        .ite (fun _ => ?_) fun hply => ?_
      · exact Uses.pure hframe
      · exact Uses.get.bind fun st _ => (emit_uses _).bind fun _ _ => Uses.pure hframe
      · refine (quiesceMoves_uses hn (fun hlt child _ a b => ?_) n₁ ply alpha beta score).mono
          fun p hp => hframe.trans hp
        refine ih (by omega) (fun h => ?_) child a b
        obtain ⟨h1, h2⟩ := hok h
        omega

/-! ### Full-width search -/

theorem visitSearch_uses {rec : Node → Int → Int → SearchM (Node × Ret)} (hn : ok → n < maxply)
    (hrec : n < maxply → CallsUse ok rec (n + 1))
    (fprune : Bool) (saveAlpha beta : Int) (ls : MoveLoop) (mov : Move) :
    Uses ok (visitSearch env rec fprune saveAlpha beta ls mov) n n (LoopStep.Continues ls.node) := by
  refine (makeMove_uses ls.node mov hn).bind ?_
  rintro child ⟨hlt, slot, rfl⟩
  refine .ite (fun _ => ?_) fun _ => .ite (fun _ => ?_) fun _ => ?_
  · exact (free_uses _).bind fun _ _ => Uses.pure (.refl _)
  · exact (free_uses _).bind fun _ _ => Uses.pure (Node.Continues.refl ls.node)
  · exact (scout_uses env (hrec hlt) (List.cons_ne_nil _ _) _ _ _ _).bind fun p _ =>
      (checkTime_uses env false).bind
      fun _ _ => conclude_uses _ mov p.1 p.2 beta fun _ => .refl _

theorem searchMoves_uses {rec : Node → Nat → Int → Int → Int → SearchM (Node × Ret)}
    (hn : ok → n < maxply) {node : Node} {ply : Nat} {depth alpha : Int}
    (hrec : n < maxply → CallsUse ok
      (fun child => rec child (ply + 1) (mainDepth node depth alpha - 1)) (n + 1))
    (beta : Int) :
    Uses ok (searchMoves env rec node ply depth alpha beta) n n (fun p => node.Frame p.1) := by
  have hframe : node.Frame { node with type := .fullwidth, historytable := some node.board.side } :=
    ⟨rfl, rfl, rfl, rfl⟩
  refine (start_uses env fun _ => Node.start_isSome (Or.inl rfl) env.beyond).bind ?_
  rintro n' ⟨history, hstart⟩
  refine (moveLoop_uses (M := fun _ => True)
    (fun ls mov _ _ => visitSearch_uses hn hrec (fprune node depth alpha) alpha beta ls mov) loopFuel _
    (.refl n') (fun _ _ => trivial) (todo_lt_loopFuel n')).bind ?_
  rintro ⟨ls, aborted⟩ hkeeps
  have hls := (hframe.trans (Node.frame_start hstart)).trans hkeeps.toFrame
  refine .ite (fun _ => Uses.pure hls) fun _ => ?_
  refine (emit_uses _).bind fun _ _ => (store_uses ls.node _ alpha beta _).bind fun _ _ =>
    (addHistory_uses ls.node).bind fun _ _ => (addKiller_uses ls.node).bind fun n'' hn'' => ?_
  exact Uses.pure (hls.trans hn'')

theorem nullMove_uses {rec : Node → Nat → Int → Int → Int → SearchM (Node × Ret)}
    (hn : ok → n < maxply) {node : Node} {ply : Nat} {depth : Int}
    (hparent : ok → node.ancestors ≠ [])
    (hrec : n < maxply → CallsUse ok (fun child => rec child (ply + 1) (depth - 2 - 1)) (n + 1))
    (beta : Int) :
    Uses ok (nullMove env rec node ply depth beta) n n (fun _ => True) := by
  unfold nullMove
  split
  · rename_i hnil
    exact Uses.bug fun h => hparent h hnil
  · refine .ite (fun _ => ?_) fun _ => Uses.pure trivial
    refine (makeMove_uses node .null hn).bind ?_
    rintro child ⟨hlt, slot, rfl⟩
    refine (hrec hlt _ (List.cons_ne_nil _ _) _ _).bind fun p _ => (free_uses p.1).bind fun _ _ => ?_
    exact .ite (fun _ => Uses.pure trivial) fun _ => Uses.pure trivial

/-- **The search needs no more fuel than there are nodes left and levels to deepen**, and the
pool suffices below `MAXPLY`. -/
theorem search_uses {fuel ply : Nat} {depth : Int} (hfuel : maxply - n + depth.toNat + 1 < fuel)
    {node : Node} (hok : ok → n ≤ ply ∧ ply + depth.toNat < maxply ∧ node.ancestors ≠ [])
    (alpha beta : Int) :
    Uses ok (search env fuel node ply depth alpha beta) n n (fun p => node.Frame p.1) := by
  induction fuel generalizing n ply depth node alpha beta with
  | zero => exact absurd hfuel (Nat.not_lt_zero _)
  | succ fuel ih =>
    have hn : ok → n < maxply := by
      intro h
      obtain ⟨h1, h2, _⟩ := hok h
      omega
    refine returning_uses ?_ .search alpha beta
    refine .ite (fun _ => ?_) fun hdepth => ?_
    · refine quiescenceSearch_uses (by omega) (fun h => ?_) node alpha beta
      obtain ⟨h1, h2, _⟩ := hok h
      omega
    have hchild : ∀ d : Int, d < depth → n < maxply →
        CallsUse ok (fun child => search env fuel child (ply + 1) d) (n + 1) := by
      intro d hd hlt child hc a b
      refine ih (by omega) (fun h => ⟨?_, ?_, hc⟩) a b
      · exact Nat.succ_le_succ (hok h).1
      · have := (hok h).2.1
        omega
    cases hdraw : node.isDraw with
    | some drawscore => exact Uses.pure (.refl node)
    | none =>
      refine Uses.modify_bind (fun _ => rfl) ((probe_uses env node depth alpha beta).bind ?_)
      rintro ⟨n₁, hit⟩ hframe
      cases hit with
      | some score => exact Uses.pure hframe
      | none =>
        have hok₁ : ok → n ≤ ply ∧ ply + depth.toNat < maxply ∧ n₁.ancestors ≠ [] := by
          intro h
          rw [hframe.ancestors]
          exact hok h
        refine (nullMove_uses hn (fun h => (hok₁ h).2.2) (hchild _ (by omega)) beta).bind ?_
        rintro (_ | score) _
        · refine Uses.bind (P := fun n₂ => node.Frame n₂)
            (?_ : Uses ok (deepen (search env fuel) n₁ ply depth alpha beta) n n _) fun n₂ hframe₂ => ?_
          · refine .ite (fun h => ?_) fun _ => Uses.pure hframe
            refine (ih (by omega) (fun hk => ?_) alpha beta).bind fun p hp => Uses.pure ?_
            · obtain ⟨h1, h2, h3⟩ := hok₁ hk
              exact ⟨h1, by omega, h3⟩
            · exact (hframe.trans hp).trans ⟨rfl, rfl, rfl, rfl⟩
          · have hle := mainDepth_le n₂ depth alpha
            exact (searchMoves_uses hn (hchild _ (by omega)) beta).mono fun p hp => hframe₂.trans hp
        · exact Uses.pure hframe

/-! ### The root -/

theorem visitRoot_uses {rec : Node → Int → Int → SearchM (Node × Ret)} (hn : ok → n < maxply)
    (hrec : n < maxply → CallsUse ok rec (n + 1)) (saveAlpha beta : Int) (ls : MoveLoop) (mov : Move)
    (hlegal : ok → (ls.node.board.makeMove mov).isLegal = true) :
    Uses ok (visitRoot env rec saveAlpha beta ls mov) n n (LoopStep.Continues ls.node) := by
  refine (makeMove_uses ls.node mov hn).bind ?_
  rintro child ⟨hlt, slot, rfl⟩
  by_cases hl : (ls.node.board.makeMove mov).isLegal = true
  · have hc : (!(ls.node.makeMove mov slot).board.isLegal) = false := by
      show (!(ls.node.board.makeMove mov).isLegal) = false
      rw [hl]
      rfl
    simp only [hc, Bool.false_eq_true, if_false]
    refine Uses.get.bind fun st _ => (checkTime_uses env true).bind fun _ _ => ?_
    have hline : (withLine st.ply1PvlineMap mov (ls.node.makeMove mov slot)).ancestors ≠ [] := by
      unfold withLine
      split <;> exact List.cons_ne_nil _ _
    refine (scout_uses env (hrec hlt) hline _ _ _ _).bind fun p _ => Uses.modify_bind (fun _ => rfl) ?_
    exact conclude_uses _ mov p.1 p.2 beta fun _ => Node.continues_setCurrentScore _ _
  · have hc : (!(ls.node.makeMove mov slot).board.isLegal) = true := by
      have hl : (ls.node.board.makeMove mov).isLegal = false := Bool.not_eq_true _ ▸ hl
      show (!(ls.node.board.makeMove mov).isLegal) = true
      rw [hl]
      rfl
    simp only [hc, if_true]
    exact Uses.bug fun h => hl (hlegal h)

/-- A root node as `init_root` leaves it: there are moves, and all of them are legal. -/
structure RootFits (node : Node) : Prop where
  type : node.type = .root
  size : node.movelist.size ≠ 0
  legal : ∀ mov ∈ node.movelist.moves, (node.board.makeMove mov).isLegal = true

theorem startList_root {node : Node} (h : node.type = .root) : node.startList = node.movelist := by
  simp only [Node.startList, h]

theorem keeps_start_root {node n : Node} {beyond : BitVec 32} {history : PerColor HistoryTable}
    (h : node.type = .root) (hstart : node.start beyond history = some n) : node.Keeps n := by
  have hc := Node.continues_start hstart
  refine ⟨Node.frame_start hstart, hc.type, ?_⟩
  rw [hc.moves, startList_root h]

/-- **The search of the root.** -/
theorem searchRoot_uses {fuel : Nat} {depth : Int} (hfuel : maxply - n + depth.toNat < fuel)
    {node : Node} (hok : ok → n = 0 ∧ depth.toNat < maxply ∧ RootFits node) (alpha beta : Int) :
    Uses ok (searchRoot env fuel node depth alpha beta) n n (fun p => ok → node.Keeps p.1) := by
  have hn : ok → n < maxply := by
    intro h
    rw [(hok h).1]
    decide
  refine returning_uses ?_ .root alpha beta
  refine (start_uses env fun h => Node.start_root (hok h).2.2.type (hok h).2.2.size env.beyond).bind ?_
  rintro n' ⟨history, hstart⟩
  have hframe := Node.frame_start hstart
  have hcalls : n < maxply → CallsUse ok (fun child => search env fuel child 1 (depth - 1)) (n + 1) := by
    intro hlt child hc a b
    refine search_uses (by omega) (fun h => ⟨?_, ?_, hc⟩) a b
    · rw [(hok h).1]
    · have := (hok h).2.1
      have hmax : maxply = 1024 := rfl
      omega
  refine (moveLoop_uses (M := fun mov => ok → (node.board.makeMove mov).isLegal = true)
    (fun ls mov hls hmov => visitRoot_uses hn hcalls alpha beta ls mov ?_) loopFuel _
    (.refl n') ?_ (todo_lt_loopFuel n')).bind ?_
  · rw [hls.board, hframe.board]
    exact hmov
  · intro mov hmov h
    have hmov : mov ∈ n'.todo := hmov
    rw [Node.todo_start hstart, startList_root (hok h).2.2.type] at hmov
    exact (hok h).2.2.legal mov hmov
  · rintro ⟨ls, aborted⟩ hkeeps
    have hls : ok → node.Keeps ls.node := fun h => (keeps_start_root (hok h).2.2.type hstart).trans hkeeps
    refine .ite (fun _ => Uses.pure hls) fun _ => ?_
    exact (addHistory_uses ls.node).bind fun _ _ => Uses.pure hls

/-! ### Iterative deepening -/

theorem RootFits.keeps {node n : Node} (h : RootFits node) (hk : node.Keeps n) : RootFits n where
  type := hk.type.trans h.type
  size := by
    have := hk.moves.length_eq
    rw [Movelist.length_moves, Movelist.length_moves] at this
    show n.movelist.entries.length ≠ 0
    rw [this]
    exact h.size
  legal mov hmov := by
    rw [hk.board]
    exact h.legal mov (hk.moves.mem_iff.mp hmov)

end Searching

/-- How often the window of an iteration can still be opened. -/
def openings (alpha beta : Int) : Nat :=
  (if alpha ≤ -infty then 0 else 1) + (if infty ≤ beta then 0 else 1)

theorem openings_lt_againFuel (alpha beta : Int) : openings alpha beta < againFuel := by
  unfold openings
  split <;> split <;> decide

theorem afterIteration_uses {ok : Prop} {n : Nat} (node : Node) (best : Move) (score alpha beta : Int) :
    Uses ok (afterIteration node best score alpha beta) n n (fun d =>
      ∀ a b, d = .again a b → openings a b < openings alpha beta) := by
  have hmate : mate = 90000 := rfl
  have hinfty : infty = 100000 := rfl
  refine Uses.get.bind fun st _ => .ite (fun h => ?_) fun _ => .ite (fun h => ?_) fun _ => ?_
  · refine Uses.pure fun a b hab => ?_
    split at hab
    · cases hab
    · cases hab
      unfold openings
      rw [if_pos le_rfl, if_neg (by omega : ¬ alpha ≤ -infty)]
      omega
  · refine Uses.pure fun a b hab => ?_
    split at hab
    · cases hab
    · cases hab
      unfold openings
      rw [if_pos le_rfl, if_neg (by omega : ¬ infty ≤ beta)]
      omega
  · refine (emit_uses _).bind fun _ _ => .ite (fun _ => Uses.pure nofun) fun _ =>
      .ite (fun _ => Uses.pure nofun) fun _ => Uses.pure nofun

section Deepening

variable [Build] {ok : Prop} {n : Nat} {env : SearchEnv}

/-- An iteration ends, however often its window is opened. -/
theorem iteration_uses {fuel depth : Nat} (hfuel : maxply - n + depth < fuel) (k : Nat) {node : Node}
    (hok : ok → n = 0 ∧ depth < maxply ∧ RootFits node) (best : Move) {alpha beta : Int}
    (hk : openings alpha beta < k) :
    Uses ok (iteration env fuel depth k node best alpha beta) n n (fun p => ok → node.Keeps p.1) := by
  induction k generalizing node alpha beta with
  | zero => exact absurd hk (Nat.not_lt_zero _)
  | succ k ih =>
    have hdepth : (depth : Int).toNat = depth := Int.toNat_natCast depth
    have hroot : Uses ok (searchRoot env fuel node depth alpha beta) n n
        (fun p => ok → node.Keeps p.1) := by
      refine searchRoot_uses (by omega) (fun h => ?_) alpha beta
      obtain ⟨h1, h2, h3⟩ := hok h
      exact ⟨h1, by omega, h3⟩
    refine hroot.bind ?_
    rintro ⟨n', r⟩ hkeeps
    refine (checkTime_uses env true).bind fun _ _ => (readStop_uses env).bind fun stopped _ =>
      .ite (fun _ => Uses.pure hkeeps) fun _ => ?_
    refine (afterIteration_uses n' best r.score alpha beta).bind fun d hd => ?_
    cases d with
    | stop best => exact Uses.pure hkeeps
    | deeper best a b => exact Uses.pure hkeeps
    | again a b =>
      have hlt := hd a b rfl
      refine (ih (fun h => ?_) (by omega)).mono fun p hp h => (hkeeps h).trans (hp h)
      obtain ⟨h1, h2, h3⟩ := hok h
      exact ⟨h1, h2, h3.keeps (hkeeps h)⟩

theorem iterateLoop_uses {fuel : Nat} (k : Nat) {rootdepth : Nat}
    (hfuel : maxply - n + rootdepth + k ≤ fuel) {node : Node}
    (hok : ok → n = 0 ∧ rootdepth + k ≤ maxply ∧ RootFits node) (best : Move) (alpha beta : Int) :
    Uses ok (iterateLoop env fuel rootdepth k node best alpha beta) n n (fun _ => True) := by
  induction k generalizing rootdepth node best alpha beta with
  | zero => exact Uses.pure trivial
  | succ k ih =>
    have hiter : Uses ok (iteration env fuel rootdepth againFuel node best alpha beta) n n
        (fun p => ok → node.Keeps p.1) := by
      refine iteration_uses (by omega) againFuel (fun h => ?_) best (openings_lt_againFuel alpha beta)
      obtain ⟨h1, h2, h3⟩ := hok h
      exact ⟨h1, by omega, h3⟩
    refine hiter.bind ?_
    rintro ⟨n', d⟩ hkeeps
    cases d with
    | stop best => exact Uses.pure trivial
    | again a b => exact Uses.pure trivial
    | deeper best a b =>
      refine tick_uses.bind fun t _ => .ite (fun _ => Uses.pure trivial) fun _ => ?_
      refine ih (by omega) (fun h => ?_) best a b
      obtain ⟨h1, h2, h3⟩ := hok h
      exact ⟨h1, by omega, h3.keeps (hkeeps h)⟩

/-- **`iterate` returns.** -/
theorem iterate_uses {fuel depth : Nat} (hfuel : maxply - n + depth < fuel) {node : Node}
    (hok : ok → n = 0 ∧ depth < maxply ∧ RootFits node) :
    Uses ok (iterate env fuel depth node) n n (fun _ => True) := by
  refine Uses.modify_bind (fun _ => rfl) (iterateLoop_uses depth (by omega) (fun h => ?_) _ _ _)
  obtain ⟨h1, h2, h3⟩ := hok h
  exact ⟨h1, by omega, h3⟩

/-- `init_root` sets up a root that fits. -/
theorem rootFits_initRoot {board : Board} {root : Node} (h : (Node.ofBoard board).initRoot = some root) :
    RootFits root := by
  unfold Node.initRoot at h
  simp only at h
  split at h
  · cases h
  · rename_i mov rest hmoves
    cases h
    have hmoves : (board.filterIllegal (board.generateMoves false .empty)).moves = mov :: rest := hmoves
    refine ⟨rfl, ?_, fun mov' hmov => ?_⟩
    · show (board.filterIllegal (board.generateMoves false .empty)).entries.length ≠ 0
      rw [← Movelist.length_moves, hmoves]
      exact Nat.succ_ne_zero _
    · have hmov : mov' ∈ (board.filterIllegal (board.generateMoves false .empty)).moves := hmov
      rw [Board.filterIllegal, Movelist.mem_filterBy] at hmov
      exact hmov.2

/-- **`iterate` answers for every root and every depth up to `MAXDEPTH`.** -/
theorem iterate_returns {board : Board} {root : Node} (h : (Node.ofBoard board).initRoot = some root)
    {fuel depth : Nat} (hdepth : depth ≤ maxdepth) (hfuel : depth + maxply < fuel) {st : SearchState}
    (hst : st.nextSlot = 0) : ∃ p st', iterate env fuel depth root st = .done p st' := by
  have hmax : maxdepth = 900 := rfl
  have hply : maxply = 1024 := rfl
  have huses : Uses True (iterate env fuel depth root) 0 0 (fun _ => True) :=
    iterate_uses (by omega) fun _ => ⟨rfl, by omega, rootFits_initRoot h⟩
  obtain ⟨p, st', hd, _⟩ := (huses st hst).exists_done trivial
  exact ⟨p, st', hd⟩

end Deepening

end Search

end HoiChess
