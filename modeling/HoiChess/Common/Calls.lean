import HoiChess.Common.Termination
import HoiChess.Common.SearchRuns

/-!
# Calls of the search

A `Call` is a call of one of the three searching functions.  With enough fuel it returns
or, where the pool of nodes may be too small, ends in the bug that reports this; what it
returns and the trace it leaves are one of the runs of its task.
-/

namespace HoiChess

open Chess Exec

namespace Search

/-- The windows that can be negated as an `int`. -/
structure IntWindow (alpha beta : Int) : Prop where
  lt : alpha < beta
  intMin_lt : intMin < alpha
  lt_neg_intMin : beta < -intMin

section Windows

variable {alpha beta : Int}

theorem IntWindow.negated (h : IntWindow alpha beta) : IntWindow (-beta) (-alpha) where
  lt := by have := h.lt; omega
  intMin_lt := by have := h.lt_neg_intMin; omega
  lt_neg_intMin := by have := h.intMin_lt; omega

theorem IntWindow.null (h : IntWindow alpha beta) : IntWindow (-alpha - 1) (-alpha) where
  lt := by omega
  intMin_lt := by have := h.lt; have := h.lt_neg_intMin; omega
  lt_neg_intMin := by have := h.intMin_lt; omega

theorem IntWindow.pass (h : IntWindow alpha beta) : IntWindow (-beta) (-beta + 1) where
  lt := by omega
  intMin_lt := by have := h.lt_neg_intMin; omega
  lt_neg_intMin := by have := h.lt; have := h.intMin_lt; omega

theorem IntWindow.raise (h : IntWindow alpha beta) {alpha' : Int} (hle : alpha ≤ alpha')
    (hlt : alpha' < beta) : IntWindow alpha' beta :=
  ⟨hlt, lt_of_lt_of_le h.intMin_lt hle, h.lt_neg_intMin⟩

end Windows

/-- A call of `search_root`, `search` or `quiescence_search`. -/
inductive Call where
  | root (node : Node) (depth : Int)
  | search (node : Node) (ply : Nat) (depth : Int)
  | quiesce (node : Node) (ply : Nat)

namespace Call

def node : Call → Node
  | root node _ | search node _ _ | quiesce node _ => node

def caller : Call → Caller
  | root _ _ => .root
  | search _ _ _ => .search
  | quiesce _ _ => .quiesce

/-- How often a node may be deepened. -/
def levels : Call → Nat
  | root _ depth | search _ _ depth => depth.toNat
  | quiesce _ _ => 0

section Run

variable [Build]

/-- The pool suffices: as many nodes are in use as there are plies, and ply and depth stay
below `MAXPLY`. -/
def Fits (st : SearchState) : Call → Prop
  | root node depth => st.nextSlot = 0 ∧ depth.toNat < maxply ∧ RootFits node
  | search node ply depth =>
    st.nextSlot ≤ ply ∧ ply + depth.toNat < maxply ∧ node.ancestors ≠ []
  | quiesce _ ply => st.nextSlot ≤ ply ∧ ply < maxply

def task (alpha beta : Int) : Call → Task
  | root node depth => .root node depth alpha beta
  | search node ply depth => .search node ply depth alpha beta
  | quiesce node ply => .quiesce node ply alpha beta

variable (env : SearchEnv) (fuel : Nat) (alpha beta : Int)

def run : Call → SearchM (Node × Ret)
  | root node depth => searchRoot env fuel node depth alpha beta
  | search node ply depth => Search.search env fuel node ply depth alpha beta
  | quiesce node ply => quiescenceSearch env fuel node ply alpha beta

/-- The call comes back, unless it stops at a bug because the pool is too small. -/
def Returns (call : Call) (st : SearchState) : Prop :=
  call.run env fuel alpha beta st ≠ .outOfFuel ∧
    (call.Fits st → ∃ p st', call.run env fuel alpha beta st = .done p st')

variable {env fuel alpha beta}

theorem uses (call : Call) (hfuel : call.levels + maxply + 2 ≤ fuel) (st : SearchState) :
    Uses (call.Fits st) (call.run env fuel alpha beta) st.nextSlot st.nextSlot (fun _ => True) := by
  cases call with
  | root node depth =>
    have hfuel : depth.toNat + maxply + 2 ≤ fuel := hfuel
    exact (searchRoot_uses (by omega) id alpha beta).mono fun _ _ => trivial
  | search node ply depth =>
    have hfuel : depth.toNat + maxply + 2 ≤ fuel := hfuel
    exact (search_uses (by omega) id alpha beta).mono fun _ _ => trivial
  | quiesce node ply =>
    have hfuel : 0 + maxply + 2 ≤ fuel := hfuel
    exact (quiescenceSearch_uses (by omega) id node alpha beta).mono fun _ _ => trivial

/-- **With enough fuel a call returns.** -/
theorem returns (call : Call) (hfuel : call.levels + maxply + 2 ≤ fuel) (st : SearchState) :
    call.Returns env fuel alpha beta st := by
  have h : Uses (call.Fits st) (call.run env fuel alpha beta) st.nextSlot st.nextSlot
      (fun _ => True) := call.uses hfuel st
  refine ⟨(h st rfl).not_outOfFuel, fun hfits => ?_⟩
  obtain ⟨p, st', hd, _⟩ := (h st rfl).exists_done hfits
  exact ⟨p, st', hd⟩

end Run

end Call

/-! ## An environment in which nothing happens -/

/-- Every position is worth `value`; the clock stands still and nobody interrupts. -/
def stillEnv (failsoft : Bool) (value : Int) : SearchEnv where
  failsoft := failsoft
  pvsMode := 1
  timecheckIntervalMin := 2
  timecheckIntervalMax := 5
  extendsTime := false
  limitsIterations := false
  beyond := 0
  eval _ _ _ _ := value
  interrupted _ := false
  timeout _ := false
  elapsed _ := 0
  moreTime _ := false
  timeForNewIteration _ := true

/-- The state before a search without a hash table. -/
def idle : SearchState where
  hashtable := none
  histtable := ⟨.reset, .reset⟩
  nextSlot := 0
  slots _ := none
  ply1PvlineMap _ := none
  stop := false
  stopIteration := false
  nodesFullwidth := 0
  nodesQuiesce := 0
  nextTimecheckNodes := 0
  timecheckIntervalNodes := 1
  lastTimecheckCsecs := 0
  tick := 0
  trace := []

end Search

end HoiChess
