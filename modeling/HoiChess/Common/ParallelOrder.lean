import HoiChess.Common.Enumerate
import HoiChess.Common.ParallelSearch

/-!
# The order of the moves in the parallel search

`parallelStep` leaves open in which order the moves are searched.  What `first()` and `next()`
return at a node whose list `generate_all_moves` has made is one of the orders that it admits
(`parallelStep_pickAll`).
-/

namespace HoiChess

open Chess

namespace Node

/-- The moves that `pick()` returns, call after call, up to the first `NO_MOVE`. -/
def pickAll : Nat → Node → List Move
  | 0, _ => []
  | k + 1, node => if node.pick.2 = .noMove then [] else node.pick.2 :: pickAll k node.pick.1

/-- Every move that is left is returned exactly once. -/
theorem pickAll_perm {node : Node} (hproper : ∀ mov ∈ node.movelist.moves, mov.Proper)
    (h : node.Pickable) {k : Nat} (hk : node.todo.length ≤ k) : (pickAll k node).Perm node.todo := by
  induction k generalizing node with
  | zero =>
    rw [List.eq_nil_of_length_eq_zero (Nat.le_zero.mp hk)]
    exact .nil
  | succ k ih =>
    unfold pickAll
    split
    · rename_i hpick
      rw [todo, h.remaining_eq_nil hproper hpick]
      exact .nil
    · rename_i hpick
      have hperm := todo_pick hpick
      have hproper' : ∀ mov ∈ node.pick.1.movelist.moves, mov.Proper := fun mov hmov =>
        hproper mov ((keeps_pick node).moves.mem_iff.mp hmov)
      refine ((ih hproper' (h.pick hpick) ?_).cons _).trans hperm.symm
      rw [hperm.length_eq, List.length_cons] at hk
      exact Nat.le_of_succ_le_succ hk

section Start

variable [Build]

/-- The list of the node is the one that `generate_all_moves` makes, in some order. -/
def Generated (node : Node) : Prop :=
  node.movelist.moves.Perm node.generateAllMoves.movelist.moves

theorem Generated.proper {node : Node} (h : node.Generated) {mov : Move}
    (hmov : mov ∈ node.movelist.moves) : mov.Proper :=
  ((Movelist.Fresh.empty.generateMoves false).filterBy _).proper (h.mem_iff.mp hmov)

/-- Internal iterative deepening leaves a list that is not empty as it is. -/
theorem Generated.startList {node : Node} (htype : node.type = .fullwidth)
    (hsize : node.movelist.size ≠ 0) : node.startList = node.movelist := by
  unfold Node.startList
  simp only [htype]
  exact if_pos hsize

/-- `first()` and `next()` return every legal move exactly once. -/
theorem Generated.pickAll_perm {node node' : Node} (h : node.Generated)
    (htype : node.type = .fullwidth) (hsize : node.movelist.size ≠ 0) {beyond : BitVec 32}
    (hword : WordScored beyond) {history : PerColor HistoryTable}
    (hstart : node.start beyond history = some node') :
    (pickAll movelistMaxsize node').Perm node.generateAllMoves.movelist.moves := by
  have hlist := startList htype hsize
  have hmoves : node'.movelist.moves = node.movelist.moves := by
    rw [(continues_start hstart).moves, hlist]
  have hscored : node'.Scored := by
    refine scored_start (htype ▸ by decide) (fun mov hmov => ?_) hstart
    exact lt_moveScore node history (h.proper (hlist ▸ hmov)) fun _ => hword
  have hperm := Node.pickAll_perm (fun mov hmov => h.proper (hmoves ▸ hmov))
    (fun e he => hscored e (List.mem_of_mem_drop he)) (length_todo_le node')
  rw [todo_start hstart, hlist] at hperm
  exact hperm.trans h

end Start

end Node

namespace ParallelSearch.System

section Order

variable [Build] {n : Nat} {ν : Type} [DecidableEq ν] {cfg : Config ν} {pool : Pool n ν}
variable {stack : List (Frame n ν)} {a : Args ν} {node node' : Node} {child : Move → ν}

/-- **`first()` and `next()` return the moves in an order that `parallel_search` may be given.** -/
theorem parallelStep_pickAll (hlegal : cfg.legal a.node = node.generateAllMoves.movelist.moves.map child)
    (h : node.Generated) (htype : node.type = .fullwidth) (hsize : node.movelist.size ≠ 0)
    {beyond : BitVec 32} (hword : Node.WordScored beyond) {history : PerColor HistoryTable}
    (hstart : node.start beyond history = some node') :
    ∃ c rest, (node'.pickAll movelistMaxsize).map child = c :: rest ∧
      parallelStep cfg pool stack a .ready (.order (c :: rest)) =
        some (call pool (.parallel a (.first c rest) :: stack)
          (LoopState.childArgs a c (-a.beta) (-a.alpha))) := by
  have hperm := h.pickAll_perm htype hsize hword hstart
  have hlength : 0 < ((node'.pickAll movelistMaxsize).map child).length := by
    rw [List.length_map, (hperm.trans h.symm).length_eq, Movelist.length_moves]
    exact Nat.pos_of_ne_zero hsize
  obtain ⟨c, rest, horder⟩ := List.exists_cons_of_length_pos hlength
  refine ⟨c, rest, horder, if_pos ?_⟩
  rw [← horder, hlegal]
  exact hperm.map child

end Order

end ParallelSearch.System

end HoiChess
