import HoiChess.Common.Hash
import HoiChess.Common.ParallelLoop

/-!
# What the loop stores for the node of a slave

Right after it has collected a result for good, the loop stores it for the node that the slave has
searched.  The score has been negated by then, for the parent, and the window is negated once
more, while an entry is read by the side to move in the node.  So the entry is true only if the
negated score happens to bound the value (`LoopState.stores_truth_iff`).
-/

namespace HoiChess.ParallelSearch.LoopState

open Chess Window

variable {n : Nat} {cfg : Config Node} {a : Args Node} {timeout : Bool} {s : LoopState n Node}

/-- Whatever a step stores in a hash table is true of the value `v`. -/
def StoresTruth (cfg : Config Node) (a : Args Node) (timeout : Bool) (s : LoopState n Node) (v : Int) :
    Prop :=
  ∀ t outputs, s.step cfg a timeout = some (t, outputs) →
    ∀ c depth alpha beta ret, .stored c depth alpha beta ret ∈ outputs →
      ∀ table table', storeHashtable (some table) c depth alpha beta ret.score = some table' →
        ∀ bound, (table'.table (table'.key c.board.hashkey)).bound = some bound → bound.Holds v

/-- The value `v` of a node agrees with the entry for `-w`, which is a bound on the side that `w`
has in the window `(alpha, beta)` of the parent. -/
def Agrees (alpha beta w v : Int) : Prop :=
  if w ≤ -mate then mate ≤ v
  else if mate ≤ w then v ≤ -mate
  else if w ≤ alpha then 0 ≤ v + w
  else if beta ≤ w then v + w ≤ 0
  else v + w = 0

theorem storeBound_negated_holds (alpha beta w v : Int) :
    (storeBound (-beta) (-alpha) (-w)).Holds v ↔ Agrees alpha beta w v := by
  have h1 : -w ≥ mate ↔ w ≤ -mate := by omega
  have h2 : -w ≤ -mate ↔ mate ≤ w := by omega
  have h3 : -w ≥ -alpha ↔ w ≤ alpha := by omega
  have h4 : -w ≤ -beta ↔ beta ≤ w := by omega
  unfold storeBound Agrees
  simp only [h1, h2, h3, h4]
  split_ifs <;> simp only [Bound.Holds] <;> omega

/-- What is found under the key of the node afterwards. -/
theorem bound_stored {table table' : HashTable} {c : Node} {depth alpha beta score : Int}
    (h : storeHashtable (some table) c depth alpha beta score = some table') :
    (table'.table (table'.key c.board.hashkey)).bound = some (storeBound alpha beta score) := by
  obtain rfl := Option.some.inj h
  exact (congrArg HashEntry.bound (table.put_table_self (storeEntry c depth alpha beta score) _)).trans
    (bound_storeEntry c depth alpha beta score)

/-- A table without entries. -/
def emptyTable : HashTable := ⟨1, Nat.one_pos, fun _ => ⟨0#64, .none, 0#16, 0, .noMove⟩, none⟩

/-- Only a result that is taken for final is stored. -/
theorem Steps.stored {t : LoopState n Node} {outputs : List (Output n Node)} {c : Node}
    {depth alpha beta : Int} {ret : Ret} (h : s.Steps cfg a timeout t outputs)
    (hstored : .stored c depth alpha beta ret ∈ outputs) :
    ∃ id r, s.point = .collected id r ∧ (s.pool.slaves id).node = some c ∧
      s.failed a id r.negate.score = false ∧ alpha = -a.beta ∧ beta = -a.alpha ∧ ret = r.negate := by
  cases h with
  | start hpoint htodo hid => cases List.mem_singleton.mp hstored
  | again hpoint hnode hfailed => cases List.mem_singleton.mp hstored
  | @accept id r d hpoint hnode hfinal =>
    simp only [acceptOutput, List.mem_append, List.mem_ite_nil_right, List.mem_singleton, and_false,
      reduceCtorEq, false_or, or_false, Output.stored.injEq] at hstored
    obtain ⟨rfl, -, rfl, rfl, rfl⟩ := hstored
    exact ⟨id, r, hpoint, hnode, hfinal, rfl, rfl, rfl⟩
  | _ => cases hstored

/-- **When the entry for the node of a slave is true**: if there is none, since the node is searched
again, or if the value agrees with the score for the parent. -/
theorem stores_truth_iff {id : Fin n} {ret : Ret} {c : Node} (hpoint : s.point = .collected id ret)
    (hnode : (s.pool.slaves id).node = some c) {lo hi v : Int} (hlo : intMin < lo)
    (hret : ret.score = clamp lo hi v) :
    StoresTruth cfg a timeout s v ↔
      s.failed a id (-clamp lo hi v) = true ∨ Agrees a.alpha a.beta (clamp lo hi v) v := by
  have hscore : ret.negate.score = -clamp lo hi v := by
    have hle : lo ≤ clamp lo hi v := le_clamp
    show (if ret.score = intMin then intMin else -ret.score) = _
    rw [hret, if_neg (by omega)]
  rw [← storeBound_negated_holds, ← hscore]
  constructor
  · intro h
    refine or_iff_not_imp_left.mpr fun hnot => ?_
    have hfinal : s.failed a id ret.negate.score = false := Bool.not_eq_true _ ▸ hnot
    have hsteps : s.Steps cfg a timeout _ _ := .accept hpoint hnode hfinal
    have hstored : .stored c (a.depth - 1) (-a.beta) (-a.alpha) ret.negate ∈
        s.acceptOutput a c ret.negate := by
      simp [acceptOutput]
    exact h _ _ (step_iff.mpr hsteps) _ _ _ _ _ hstored emptyTable _ rfl _ (bound_stored rfl)
  · intro h t outputs hstep c' depth alpha beta ret' hstored table table' hput bound hbound
    obtain rfl := Option.some.inj ((bound_stored hput).symm.trans hbound)
    obtain ⟨id', r, hpoint', -, hfinal, rfl, rfl, rfl⟩ := (step_iff.mp hstep).stored hstored
    obtain ⟨rfl, rfl⟩ := LoopPoint.collected.inj (hpoint.symm.trans hpoint')
    exact h.resolve_left (by simp [hfinal])

/-! ## The opening position, searched by a slave -/

/-- A slave has returned a score for a node, with the window `(-50, 50)`. -/
def searched (c : Node) (score : Int) : LoopState 1 Node where
  pool := ⟨fun _ => ⟨.none, false, 0, false, none, some c, false, 0⟩, [], false, 0⟩
  alpha := ⟨-50, false⟩
  bestscore := ⟨-50, false⟩
  todo := []
  results := []
  point := .collected 0 ⟨score, false⟩

def sampleConfig : Config Node := ⟨false, 0, 4, 1, fun _ => []⟩

theorem exists_opening : ∃ b, @Board.parseFen sampleBuild openingFen = .accepted b := by
  have hrun : (@Board.parseFen sampleBuild openingFen).holds (fun _ => true) = true := by decide
  obtain ⟨b, hb, -⟩ := FenResult.holds_eq_true.mp hrun
  exact ⟨b, hb⟩

def sampleArgs (c : Node) : Args Node := ⟨c, 0, 5, -50, 50⟩

/-- **A node that is worth 20 is stored as worth -20.** -/
theorem stores_untruth : ∃ b, @Board.parseFen sampleBuild openingFen = .accepted b ∧
    ¬ StoresTruth sampleConfig (sampleArgs (.ofBoard b)) false (searched (.ofBoard b) 20) 20 := by
  obtain ⟨b, hb⟩ := exists_opening
  refine ⟨b, hb, fun h => ?_⟩
  have hsteps : (searched (.ofBoard b) 20).Steps sampleConfig (sampleArgs (.ofBoard b)) false _ _ :=
    .accept rfl rfl rfl
  have hstored : (.stored (.ofBoard b) 4 (-50) 50 ⟨-20, false⟩ : Output 1 Node) ∈
      (searched (.ofBoard b) 20).acceptOutput (sampleArgs (.ofBoard b)) (.ofBoard b) ⟨-20, false⟩ := by
    simp [acceptOutput, sampleArgs]
  have hexact := h _ _ (step_iff.mpr hsteps) _ _ _ _ _ hstored emptyTable _ rfl _ (bound_stored rfl)
  have hneg : (20 : Int) = -20 := hexact
  cases hneg

/-- A node that is worth nothing is stored so. -/
theorem stores_truth_draw : ∃ b, @Board.parseFen sampleBuild openingFen = .accepted b ∧
    (StoresTruth sampleConfig (sampleArgs (.ofBoard b)) false (searched (.ofBoard b) 0) 0 ↔
      (searched (.ofBoard b) 0).failed (sampleArgs (.ofBoard b)) 0 (-clamp (-50) 50 0) = true ∨
        Agrees (-50) 50 (clamp (-50) 50 0) 0) ∧
    StoresTruth sampleConfig (sampleArgs (.ofBoard b)) false (searched (.ofBoard b) 0) 0 := by
  obtain ⟨b, hb⟩ := exists_opening
  have hiff : StoresTruth sampleConfig (sampleArgs (.ofBoard b)) false (searched (.ofBoard b) 0) 0 ↔
      (searched (.ofBoard b) 0).failed (sampleArgs (.ofBoard b)) 0 (-clamp (-50) 50 0) = true ∨
        Agrees (-50) 50 (clamp (-50) 50 0) 0 :=
    stores_truth_iff rfl rfl (by decide) (by decide)
  have hagrees : Agrees (-50) 50 (clamp (-50) 50 0) 0 := by simp [Agrees, clamp, mate]
  exact ⟨b, hb, hiff, hiff.mpr (.inr hagrees)⟩

end HoiChess.ParallelSearch.LoopState
