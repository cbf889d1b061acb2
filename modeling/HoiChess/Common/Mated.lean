import HoiChess.Common.Calls
import HoiChess.Common.SoundNode

/-!
# Mate at the horizon

A mated node of `quiescence_search`: all its moves lead to boards that are not legal, so the move
loop changes nothing (`moveLoop_idle`).  The mate is found only after the static score has been
compared with the window and has raised alpha, and the score that is stored is compared with the
old window.  So the result is right exactly if the static score is low enough
(`quiescenceSearch_mated_iff`).
-/

namespace HoiChess

open Chess Exec Window

/-- None of the moves that are tried in check is legal. -/
def Chess.Board.NoEscape [Build] (b : Board) : Prop :=
  ∀ mov ∈ (b.generateEscapes .empty).moves, b.isLegalMove mov = false

theorem Chess.Board.isMate_eq_true [Build] {b : Board} :
    b.isMate = true ↔ b.inCheck = true ∧ ∀ mov, mov ∉ b.legalMoves.moves := by
  rw [Board.isMate, Bool.and_eq_true, decide_eq_true_iff, ← List.eq_nil_iff_forall_not_mem,
    ← List.length_eq_zero_iff, Movelist.length_moves]
  exact Iff.rfl

/-- In check, the program finds no legal move among all moves exactly if it finds none among the
escapes. -/
theorem Chess.Board.Sound.isMate_iff [Build] {b : Board} (h : b.Sound) (hc : b.inCheck = true) :
    b.isMate = true ↔ b.NoEscape := by
  have hcheck := h.inCheck_iff.mp hc
  rw [Board.isMate_eq_true, and_iff_right hc]
  constructor
  · intro hno mov hmov
    obtain ⟨ply, rfl, hp⟩ := h.lists_generateEscapes hmov
    by_contra hlegal
    have hl := (h.isLegal_iff hp).mp (by simpa [Board.isLegalMove] using hlegal)
    exact hno _ ((h.sim.mem_legalMoves h.sane h.materialOk _).mpr ⟨ply, rfl, hl⟩)
  · intro hne mov hmov
    obtain ⟨ply, rfl, hl⟩ := (h.sim.mem_legalMoves h.sane h.materialOk _).mp hmov
    obtain ⟨ply', hl', hch⟩ := Rules.Position.exists_chosen ⟨ply, hl⟩
    have hmem := (h.sim.mem_filterIllegal_generateEscapes h.sane h.materialOk hcheck _).mpr
      ⟨ply', rfl, hl', hch⟩
    rw [Board.filterIllegal, Movelist.mem_filterBy] at hmem
    have hno := hne _ hmem.1
    rw [hno] at hmem
    exact Bool.false_ne_true hmem.2

namespace Search

section Tree

variable [Build] {env : SearchEnv}

/-! ## Moves that are not legal -/

/-- Trying the move leaves the loop where it was, and no more than a freed node behind. -/
def Idle (visit : MoveLoop → Move → SearchM LoopStep) (board : Board) (mov : Move) : Prop :=
  ∀ (ls : MoveLoop) (st : SearchState), ls.node.board = board → st.nextSlot < maxply →
    ∃ slots pool, visit ls mov st = .done (.next ls) { st with slots := slots, pool := pool }

theorem makeMove_run (node : Node) (mov : Move) {st : SearchState} (hn : st.nextSlot < maxply) :
    makeMove node mov st = .done (node.makeMove mov (st.slots st.nextSlot))
      { st with
        nextSlot := st.nextSlot + 1
        pool := st.pool ++ [.push (node.makeMove mov (st.slots st.nextSlot)).place] } := by
  show (if st.nextSlot < maxply then _ else Exec.bug : SearchM Node) st = _
  rw [if_pos hn]
  rfl

variable {board : Board} {mov : Move}

theorem idle_quiesce (h : board.isLegalMove mov = false)
    (rec : Node → Int → Int → SearchM (Node × Ret)) (beta : Int) :
    Idle (visitQuiesce env rec beta) board mov := by
  rintro ls st rfl hn
  have hchild : (ls.node.makeMove mov (st.slots st.nextSlot)).board.isLegal = false := h
  unfold visitQuiesce
  rw [bind_of_done (makeMove_run ls.node mov hn), hchild]
  exact ⟨_, _, rfl⟩

omit [Build] in
/-- **A loop over moves that are not legal** only picks them. -/
theorem moveLoop_idle {visit : MoveLoop → Move → SearchM LoopStep} (fuel : Nat) (ls : MoveLoop)
    (st : SearchState) (hidle : ∀ mov ∈ ls.node.todo, Idle visit ls.node.board mov)
    (hfuel : ls.node.todo.length < fuel) (hn : st.nextSlot < maxply) :
    ∃ node slots pool, moveLoop visit fuel ls st =
        .done ({ ls with node := node }, false) { st with slots := slots, pool := pool } ∧
      ls.node.Keeps node ∧ node.bestLine = ls.node.bestLine := by
  induction fuel generalizing ls st with
  | zero => exact absurd hfuel (Nat.not_lt_zero _)
  | succ fuel ih =>
    have hkeeps := Node.keeps_pick ls.node
    have hbest := (Node.results_pick ls.node).2
    by_cases hpick : ls.node.pick.2 = .noMove
    · refine ⟨ls.node.pick.1, st.slots, st.pool, ?_, hkeeps, hbest⟩
      show (if ls.node.pick.2 = .noMove then _ else _ : SearchM (MoveLoop × Bool)) st = _
      rw [if_pos hpick]
      rfl
    · have hperm := Node.todo_pick hpick
      have hmov := hidle _ (hperm.mem_iff.mpr List.mem_cons_self)
      obtain ⟨slots, pool, hvisit⟩ := hmov { ls with node := ls.node.pick.1 } st hkeeps.board hn
      have hrest : ∀ mov ∈ ls.node.pick.1.todo, Idle visit ls.node.pick.1.board mov := by
        intro mov hmem
        rw [hkeeps.board]
        exact hidle mov (hperm.mem_iff.mpr (List.mem_cons_of_mem _ hmem))
      have hlen : ls.node.pick.1.todo.length < fuel := by
        have := hperm.length_eq
        rw [List.length_cons] at this
        omega
      obtain ⟨node, slots', pool', hloop, hk, hb⟩ :=
        ih { ls with node := ls.node.pick.1 } { st with slots := slots, pool := pool } hrest hlen hn
      refine ⟨node, slots', pool', ?_, hkeeps.trans hk, hb.trans hbest⟩
      show (if ls.node.pick.2 = .noMove then _ else _ : SearchM (MoveLoop × Bool)) st = _
      rw [if_neg hpick, bind_of_done hvisit]
      exact hloop

theorem start_run {node n : Node} {st : SearchState}
    (h : node.start env.beyond st.histtable = some n) : start env node st = .done n st := by
  have hget : (Exec.get : SearchM SearchState) st = .done st st := rfl
  unfold start
  rw [bind_of_done hget, h]
  rfl

/-! ## The mated node of a quiescence search -/

/-- `-INFTY + ply` -/
def mateScore (ply : Nat) : Int := -infty + ply

/-- What `quiescence_search` makes of the mate, once the static score is known to be below beta. -/
def mateResult (failsoft : Bool) (ply : Nat) (alpha beta score : Int) : Int :=
  if failsoft then mateScore ply else boundScore (mateScore ply) (max score alpha) beta

variable {node : Node} {ply : Nat} {alpha beta : Int} {st : SearchState}

/-- **The moves of a mated node**: nothing but the store. -/
theorem quiesceMoves_mated (env : SearchEnv) (hne : node.board.NoEscape)
    (hcheck : node.incheck = true) (hn : st.nextSlot < maxply)
    (rec : Node → Int → Int → SearchM (Node × Ret)) (ply : Nat) (alpha beta score : Int) :
    ∃ node' slots pool trace, node'.board = node.board ∧
      quiesceMoves env rec node ply alpha beta score st =
        .done (node', ⟨mateResult env.failsoft ply alpha beta score, false⟩)
          { st with
            slots := slots
            pool := pool
            hashtable := storeHashtable st.hashtable node' 0 alpha beta
              (mateResult env.failsoft ply alpha beta score)
            trace := trace } := by
  have hsome : ∃ n, ({ node with type := .quiesce } : Node).start env.beyond st.histtable = some n :=
    Node.start_isSome (Or.inr rfl) env.beyond st.histtable
  obtain ⟨n, hstart⟩ := hsome
  have hframe := Node.frame_start hstart
  have htodo : n.todo = (node.board.generateEscapes .empty).moves := by
    rw [Node.todo_start hstart]
    simp [Node.startList, hcheck]
  set ls : MoveLoop :=
    { node := n
      alpha := max score alpha
      bestscore := if env.failsoft then score else -infty
      moves := 0
      first := true }
  have hidle : ∀ mov ∈ n.todo, Idle (visitQuiesce env rec beta) n.board mov := by
    intro mov hmov
    rw [htodo] at hmov
    rw [hframe.board]
    exact idle_quiesce (hne mov hmov) rec beta
  obtain ⟨n', slots, pool, hloop, hkeeps, _⟩ := moveLoop_idle loopFuel ls st hidle (todo_lt_loopFuel n) hn
  have hcheck' : n'.incheck = true := by
    rw [hkeeps.incheck, hframe.incheck]
    exact hcheck
  refine ⟨n', slots, pool, st.trace ++ [.wrote .hash n'.tainted], hkeeps.board.trans hframe.board, ?_⟩
  unfold quiesceMoves
  rw [bind_of_done (start_run hstart), bind_of_done hloop]
  have hfinish : finishQuiesce env ply alpha beta { ls with node := n' } = (do
      store n' 0 alpha beta (mateResult env.failsoft ply alpha beta score)
      pure (n', ⟨mateResult env.failsoft ply alpha beta score, false⟩)) := by
    unfold finishQuiesce mateResult mateScore
    cases env.failsoft <;> simp [hcheck', ls]
  simp only [Bool.false_eq_true, if_false, hfinish]
  rfl

/-- No entry of the hash table is about the board. -/
def Unknown (hashtable : Option HashTable) (board : Board) : Prop :=
  ∀ t, hashtable = some t → ∀ e, t.Finds board.hashkey e →
    e.type = .none ∨ e.hashkey ≠ board.hashkey

theorem probe_unknown (hu : Unknown st.hashtable node.board) (depth : Int) :
    probe env node depth alpha beta st = .done (node, none) st := by
  have hprobe : probeHashtable env.failsoft st.hashtable node depth alpha beta = (node, none) := by
    unfold probeHashtable
    cases ht : st.hashtable with
    | none => rfl
    | some t =>
      have hnone : t.probe node.board = none := by
        unfold HashTable.probe
        rw [if_pos (hu t ht _ rfl)]
      simp only [hnone]
  show Outcome.done (probeHashtable env.failsoft st.hashtable node depth alpha beta) st = _
  rw [hprobe]

/-- What the mated node returns for the static score. -/
def horizonResult (failsoft : Bool) (ply : Nat) (alpha beta score : Int) : Int :=
  if beta ≤ score then (if failsoft then score else beta)
  else mateResult failsoft ply alpha beta score

/-- **A mated node at the horizon.** -/
theorem quiescenceSearch_mated (env : SearchEnv) (hne : node.board.NoEscape)
    (hcheck : node.incheck = true) (hn : st.nextSlot < maxply)
    (hu : Unknown st.hashtable node.board) (hply : ply ≠ maxply - 1) (fuel : Nat) (alpha beta : Int) :
    let score := env.eval st.tick node.board alpha beta
    let result := horizonResult env.failsoft ply alpha beta score
    ∃ node' st', quiescenceSearch env (fuel + 1) node ply alpha beta st =
        .done (node', ⟨result, false⟩) st' ∧ node'.board = node.board ∧
      st'.hashtable = if beta ≤ score then st.hashtable
        else storeHashtable st.hashtable node' 0 alpha beta result := by
  intro score result
  set st₁ : SearchState := { st with nodesQuiesce := st.nodesQuiesce + 1 }
  set st₂ : SearchState := { st₁ with tick := st.tick + 1 }
  have hu₁ : Unknown st₁.hashtable node.board := hu
  have hn₂ : st₂.nextSlot < maxply := hn
  have hprobe : probe env node 0 alpha beta st₁ = .done (node, none) st₁ := probe_unknown hu₁ 0
  have heval : eval env node.board alpha beta st₁ = .done score st₂ := rfl
  have hcount : modify (fun st : SearchState => { st with nodesQuiesce := st.nodesQuiesce + 1 }) st =
      .done () st₁ := rfl
  have hbody : ∃ node' st', quiesceBody env (quiescenceSearch env fuel) node ply alpha beta st =
        .done (node', ⟨result, false⟩) st' ∧ node'.board = node.board ∧
      st'.hashtable = if beta ≤ score then st.hashtable
        else storeHashtable st.hashtable node' 0 alpha beta result := by
    unfold quiesceBody
    rw [bind_of_done hcount, bind_of_done hprobe]
    simp only
    rw [bind_of_done heval]
    by_cases hcut : beta ≤ score
    · have hresult : result = if env.failsoft then score else beta := if_pos hcut
      rw [if_pos hcut, ← hresult]
      exact ⟨node, st₂, rfl, rfl, (if_pos hcut).symm⟩
    · have hresult : result = mateResult env.failsoft ply alpha beta score := if_neg hcut
      obtain ⟨node', slots, pool, trace, hboard, hrun⟩ := quiesceMoves_mated env hne hcheck hn₂
        (fun node => quiescenceSearch env fuel node (ply + 1)) ply alpha beta score
      rw [if_neg hcut, if_neg hply, hrun, hresult]
      exact ⟨node', _, rfl, hboard, (if_neg hcut).symm⟩
  obtain ⟨node', st', hrun, hboard, htable⟩ := hbody
  refine ⟨node', { st' with trace := st'.trace ++
    [.returned .quiesce alpha beta ⟨result, false⟩ st'.stop] }, ?_, hboard, htable⟩
  unfold quiescenceSearch returning
  rw [bind_of_done hrun]
  rfl

/-! ## When the mate is scored as a mate -/

/-- What the hash table says about the board, if it says anything, holds of the value `v`. -/
def SaysRight (hashtable : Option HashTable) (board : Board) (v : Int) : Prop :=
  ∀ t, hashtable = some t → ∀ e bd, t.Finds board.hashkey e → e.hashkey = board.hashkey →
    e.bound = some bd → bd.Holds v

/-- The static score of the mated node does no harm.  In fail-soft mode it is below beta, or the
score of the mate.  In fail-hard mode it does not raise alpha, or not beyond the mate; a hash
table also needs an alpha that is not itself a mate score. -/
def Harmless (failsoft hashed : Bool) (ply : Nat) (alpha beta score : Int) : Prop :=
  if failsoft then score < beta ∨ score = mateScore ply
  else (beta ≤ score ∧ beta ≤ mateScore ply) ∨
    (score < beta ∧ (score ≤ alpha ∨ score ≤ mateScore ply) ∧ (hashed = true → alpha < mate))

omit [Build] in
theorem mateScore_lt {ply : Nat} (hply : ply < maxply) : mateScore ply < -mate := by
  have hlt : (ply : Int) < 1024 := by exact_mod_cast hply
  show -100000 + (ply : Int) < -90000
  omega

omit [Build] in
/-- An alpha that was raised beyond the mate is stored as the exact score. -/
theorem storeBound_mated_iff {m score : Int} (hm : m < -mate) (hab : alpha < beta)
    (hs : score < beta) :
    (storeBound alpha beta (boundScore m (max score alpha) beta)).Holds m ↔
      alpha < mate ∧ (score ≤ alpha ∨ score ≤ -mate) := by
  have hmate : mate = 90000 := rfl
  unfold boundScore storeBound
  split_ifs <;> simp only [Bound.Holds] <;> omega

omit [Build] in
theorem mateResult_eq_iff {m score : Int} (hs : score < beta) :
    boundScore m (max score alpha) beta = boundScore m alpha beta ↔ score ≤ alpha ∨ score ≤ m := by
  unfold boundScore
  split_ifs <;> omega

omit [Build] in
theorem saysRight_unknown {hashtable : Option HashTable} {board : Board}
    (hu : Unknown hashtable board) (v : Int) : SaysRight hashtable board v := by
  intro t ht e bd hfinds hkey hbd
  rcases hu t ht e hfinds with htype | hne
  · rw [HashEntry.bound, htype] at hbd
    cases hbd
  · exact absurd hkey hne

omit [Build] in
theorem saysRight_store {hashtable : Option HashTable} {node : Node} {depth score v : Int} :
    SaysRight (storeHashtable hashtable node depth alpha beta score) node.board v ↔
      (hashtable.isSome = true → (storeBound alpha beta score).Holds v) := by
  cases hashtable with
  | none => exact iff_of_true (fun t ht => by cases ht) (by simp)
  | some t =>
    have hentry : (t.put (storeEntry node depth alpha beta score) node.bestLine).Finds
        node.board.hashkey (storeEntry node depth alpha beta score) := t.put_table_self _ _
    constructor
    · intro h _
      exact h _ rfl _ _ hentry rfl (bound_storeEntry node depth alpha beta score)
    · rintro h _ ht e bd hfinds hkey hbd
      cases ht
      have he : e = storeEntry node depth alpha beta score := hfinds.symm.trans hentry
      rw [he, bound_storeEntry] at hbd
      cases hbd
      exact h rfl

/-- **When a mate at the horizon is scored and stored as a mate.** -/
theorem quiescenceSearch_mated_iff (hne : node.board.NoEscape) (hcheck : node.incheck = true)
    (hn : st.nextSlot < maxply) (hu : Unknown st.hashtable node.board) (hply : ply < maxply - 1)
    (hab : alpha < beta) (fuel : Nat) :
    ∃ node' r st', quiescenceSearch env (fuel + 1) node ply alpha beta st = .done (node', r) st' ∧
      r.aborted = false ∧
      ((r.score = (if env.failsoft then mateScore ply else boundScore (mateScore ply) alpha beta) ∧
          SaysRight st'.hashtable node.board (mateScore ply)) ↔
        Harmless env.failsoft st.hashtable.isSome ply alpha beta
          (env.eval st.tick node.board alpha beta)) := by
  obtain ⟨node', st', hrun, hboard, htable⟩ :=
    quiescenceSearch_mated env hne hcheck hn hu hply.ne fuel alpha beta
  refine ⟨node', _, st', hrun, rfl, ?_⟩
  set score := env.eval st.tick node.board alpha beta
  have hm : mateScore ply < -mate := mateScore_lt (by omega)
  have hmate : mate = 90000 := rfl
  rw [htable]
  unfold horizonResult mateResult Harmless
  generalize env.failsoft = failsoft
  by_cases hcut : beta ≤ score
  · have hright := saysRight_unknown hu (mateScore ply)
    simp only [if_pos hcut, and_iff_left hright]
    cases failsoft with
    | true =>
      simp only [if_true]
      omega
    | false =>
      simp only [Bool.false_eq_true, if_false, boundScore]
      split_ifs <;> omega
  · have hlt : score < beta := not_le.mp hcut
    rw [if_neg hcut, if_neg hcut, ← hboard, saysRight_store]
    cases failsoft with
    | true =>
      have hstored : (storeBound alpha beta (mateScore ply)).Holds (mateScore ply) := by
        unfold storeBound
        rw [if_neg (by omega), if_pos hm.le]
        exact hm.le
      simp only [if_true, true_and]
      exact iff_of_true (fun _ => hstored) (Or.inl hlt)
    | false =>
      simp only [Bool.false_eq_true, if_false, mateResult_eq_iff hlt,
        storeBound_mated_iff hm hab hlt]
      constructor
      · rintro ⟨hres, hright⟩
        exact Or.inr ⟨hlt, hres, fun h => (hright h).1⟩
      · rintro (⟨hge, _⟩ | ⟨_, hres, hright⟩)
        · exact absurd hge hcut
        · exact ⟨hres, fun h => ⟨hright h, by omega⟩⟩

end Tree

/-- Black is mated on the back rank. -/
def matedFen : String := "R5k1/5ppp/8/8/8/8/8/6K1 b - - 0 1"

/-- The node of a board, as `make_move` sets it up. -/
def nodeOf (b : Board) : Node := { Node.ofBoard b with incheck := b.inCheck }

instance [Build] (b : Board) : Decidable b.NoEscape :=
  inferInstanceAs (Decidable (∀ mov ∈ _, _ = false))

theorem mated_backRank : ∃ b, @Board.parseFen sampleBuild matedFen = .accepted b ∧
    @Board.NoEscape sampleBuild b ∧ @Board.inCheck b = true := by
  let _ := sampleBuild
  have hrun : (Board.parseFen matedFen).holds (fun b => decide b.NoEscape && b.inCheck) = true := by
    decide +kernel
  obtain ⟨b, hb, hrun⟩ := FenResult.holds_eq_true.mp hrun
  rw [Bool.and_eq_true, decide_eq_true_eq] at hrun
  exact ⟨b, hb, hrun⟩

/-- A static score far below the window does no harm. -/
theorem quiescenceSearch_sees_mate : ∃ b, @Board.parseFen sampleBuild matedFen = .accepted b ∧
    ∃ node' r st', @quiescenceSearch sampleBuild (stillEnv false (-500)) 1 (nodeOf b) 3 (-100) 100
      idle = .done (node', r) st' ∧ r.score = -100 := by
  let _ := sampleBuild
  obtain ⟨b, hb, hne, hcheck⟩ := mated_backRank
  obtain ⟨node', r, st', hrun, _, hiff⟩ := @quiescenceSearch_mated_iff sampleBuild
    (stillEnv false (-500)) (nodeOf b) 3 (-100) 100 idle hne hcheck (by decide) nofun (by decide)
    (by decide) 0
  have hlow : (-500 : Int) < 100 ∧ (-500 : Int) ≤ -100 := by decide
  have hright := hiff.mpr (Or.inr ⟨hlow.1, Or.inl hlow.2, nofun⟩)
  exact ⟨b, hb, node', r, st', hrun, hright.1⟩

/-- **Black is mated, but stands well**: the score is that of the position, not that of the mate. -/
theorem quiescenceSearch_misses_mate : ∃ b, @Board.parseFen sampleBuild matedFen = .accepted b ∧
    @Board.NoEscape sampleBuild b ∧ b.inCheck = true ∧
    ∃ node' r st', @quiescenceSearch sampleBuild (stillEnv false 0) 1 (nodeOf b) 3 (-100) 100
      idle = .done (node', r) st' ∧ r.score = 0 ∧ boundScore (mateScore 3) (-100) 100 = -100 := by
  let _ := sampleBuild
  obtain ⟨b, hb, hne, hcheck⟩ := mated_backRank
  have hne' : (nodeOf b).board.NoEscape := hne
  have hn : idle.nextSlot < maxply := by decide
  have hply : 3 ≠ maxply - 1 := by decide
  have hresult : horizonResult false 3 (-100) 100 0 = 0 := by decide
  obtain ⟨node', st', hrun, _⟩ := quiescenceSearch_mated (stillEnv false 0) hne' hcheck hn nofun hply
    0 (-100) 100
  exact ⟨b, hb, hne, hcheck, node', _, st', hrun, hresult, by decide⟩

end Search

end HoiChess
