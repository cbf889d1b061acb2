import HoiChess.Common.SearchRuns

/-!
# Runs of iterative deepening

`Iteration` and `Iterates` are to the loop of `iterate` what `Runs` is to the search below
it: one rule for each way on after `search_root` has returned.  `iterate` refines
`Iterates` (`iterate_refines`).
-/

namespace HoiChess

open Chess Exec

namespace Search

/-- What `iterate` may decide after an iteration, with the event of an adoption. -/
inductive Decides (node : Node) (best : Move) (score alpha beta : Int) (s : Bool) :
    List Event → Decision → Prop
  | low : score ≤ alpha → score > -mate → Decides node best score alpha beta s [] (.again (-infty) beta)
  | high : score ≥ beta → score < mate → Decides node best score alpha beta s [] (.again alpha infty)
  | failed : Decides node best score alpha beta s [] (.stop best)
  | done : Decides node best score alpha beta s [.adopted s]
      (.stop (if node.getBestMove ≠ .noMove then node.getBestMove else best))
  | deeper : score < mate → score > -mate → Decides node best score alpha beta s [.adopted s]
      (.deeper (if node.getBestMove ≠ .noMove then node.getBestMove else best)
        (score - window) (score + window))

theorem afterIteration_refines {hashed : Bool} (node : Node) (best : Move) (score alpha beta : Int) :
    Refines (observe hashed) (afterIteration node best score alpha beta) (fun v es v' d =>
      v' = v ∧ Decides node best score alpha beta v es d) := by
  refine (get_refines.bind (S := fun st v es v' d => st.stop = v → v' = v ∧
    Decides node best score alpha beta v es d) fun st => .ite (fun h => ?_) fun _ => .ite (fun h => ?_)
      fun _ => ?_).mono ?_
  · refine (Refines.pure _).mono ?_
    rintro v es v' d ⟨rfl, rfl, rfl⟩ _
    refine ⟨rfl, ?_⟩
    split
    · exact .failed
    · exact .low h.1 h.2
  · refine (Refines.pure _).mono ?_
    rintro v es v' d ⟨rfl, rfl, rfl⟩ _
    refine ⟨rfl, ?_⟩
    split
    · exact .failed
    · exact .high h.1 h.2
  · refine ((emit_refines (.adopted st.stop)).bind (S := fun _ v es v' d => v' = v ∧ es = [] ∧
      Decides node best score alpha beta st.stop [.adopted st.stop] d) fun _ =>
        .ite (fun _ => (Refines.pure _).mono ?_) fun _ => .ite (fun _ => (Refines.pure _).mono ?_)
          fun h => (Refines.pure _).mono ?_).mono ?_
    · rintro v es v' d ⟨rfl, rfl, rfl⟩
      exact ⟨rfl, rfl, .done⟩
    · rintro v es v' d ⟨rfl, rfl, rfl⟩
      exact ⟨rfl, rfl, .done⟩
    · rintro v es v' d ⟨rfl, rfl, rfl⟩
      obtain ⟨h1, h2⟩ := not_or.mp h
      exact ⟨rfl, rfl, .deeper (not_le.mp h1) (not_le.mp h2)⟩
    · rintro v es v' d ⟨_, v₁, _, _, rfl, ⟨rfl, rfl⟩, rfl, rfl, hd⟩ hst
      rw [List.append_nil]
      exact ⟨rfl, hst ▸ hd⟩
  · rintro v es v' d ⟨st, v₁, _, es₂, rfl, ⟨rfl, rfl, hst⟩, hrest⟩
    exact hrest hst

section Iterate

variable [Build] (env : SearchEnv) (hashed : Bool)

/-- The runs of an iteration of depth `depth`. -/
inductive Iteration (depth : Nat) :
    Node → Move → Int → Int → Bool → List Event → Bool → Node × Decision → Prop
  | stopped {node best alpha beta s es s' n r} :
      Runs env hashed (.root node depth alpha beta) s es s' (.ret n r) →
      Iteration depth node best alpha beta s es true (n, .stop best)
  | again {node best alpha beta s es₁ s₁ n r es₂ alpha' beta' es₃ s' res} :
      Runs env hashed (.root node depth alpha beta) s es₁ s₁ (.ret n r) → s₁ = false →
      Decides n best r.score alpha beta s₁ es₂ (.again alpha' beta') →
      Iteration depth n best alpha' beta' s₁ es₃ s' res →
      Iteration depth node best alpha beta s (es₁ ++ (es₂ ++ es₃)) s' res
  | decided {node best alpha beta s es₁ s₁ n r es₂ d} :
      Runs env hashed (.root node depth alpha beta) s es₁ s₁ (.ret n r) → s₁ = false →
      Decides n best r.score alpha beta s₁ es₂ d →
      Iteration depth node best alpha beta s (es₁ ++ es₂) s₁ (n, d)

/-- The runs of the loop of `iterate`. -/
inductive Iterates : Nat → Node → Move → Int → Int → Bool → List Event → Bool → Node × Move → Prop
  | rest {depth node best alpha beta s} : Iterates depth node best alpha beta s [] s (node, best)
  | stop {depth node best alpha beta s es s' n best'} :
      Iteration env hashed depth node best alpha beta s es s' (n, .stop best') →
      Iterates depth node best alpha beta s es s' (n, best')
  | late {depth node best alpha beta s es s' n best' alpha' beta'} :
      Iteration env hashed depth node best alpha beta s es s' (n, .deeper best' alpha' beta') →
      Iterates depth node best alpha beta s es s' (n, best')
  | again {depth node best alpha beta s es s' n alpha' beta'} :
      Iteration env hashed depth node best alpha beta s es s' (n, .again alpha' beta') →
      Iterates depth node best alpha beta s es s' (n, best)
  | deeper {depth node best alpha beta s es₁ s₁ n best' alpha' beta' es₂ s' res} :
      Iteration env hashed depth node best alpha beta s es₁ s₁ (n, .deeper best' alpha' beta') →
      Iterates (depth + 1) n best' alpha' beta' s₁ es₂ s' res →
      Iterates depth node best alpha beta s (es₁ ++ es₂) s' res

variable {env hashed}

theorem iteration_refines (fuel depth k : Nat) (node : Node) (best : Move) (alpha beta : Int) :
    Refines (observe hashed) (iteration env fuel depth k node best alpha beta)
      (fun v es v' p => Iteration env hashed depth node best alpha beta v es v' p) := by
  induction k generalizing node alpha beta with
  | zero => exact Refines.outOfFuel
  | succ k ih =>
    refine ((searchRoot_refines fuel node depth alpha beta).bind fun p =>
      (checkTime_refines env true).bind fun _ => (readStop_refines env).bind
        (S := fun stopped v es v' q => v = stopped → (stopped = true ∧ v' = true ∧ es = [] ∧
          q = (p.1, .stop best)) ∨ (stopped = false ∧ ∃ d v₁ es₁ es₂, es = es₁ ++ es₂ ∧ v₁ = false ∧
            Decides p.1 best p.2.score alpha beta false es₁ d ∧
            ((∃ a b, d = .again a b ∧ Iteration env hashed depth p.1 best a b v₁ es₂ v' q) ∨
              (v' = v₁ ∧ es₂ = [] ∧ q = (p.1, d))))) fun stopped => .ite (fun h => ?_) fun h => ?_).mono ?_
    · refine (Refines.pure _).mono ?_
      rintro v es v' q ⟨rfl, rfl, rfl⟩ rfl
      exact Or.inl ⟨h, h, rfl, rfl⟩
    · refine ((afterIteration_refines p.1 best p.2.score alpha beta).bind (S := fun d v es v' q =>
        (∃ a b, d = .again a b ∧ Iteration env hashed depth p.1 best a b v es v' q) ∨
          (v' = v ∧ es = [] ∧ q = (p.1, d))) fun d => ?_).mono ?_
      · cases d with
        | again a b => exact (ih p.1 a b).mono fun v es v' q hq => Or.inl ⟨a, b, rfl, hq⟩
        | stop best => exact (Refines.pure _).mono fun v es v' q hq => Or.inr hq
        | deeper best a b => exact (Refines.pure _).mono fun v es v' q hq => Or.inr hq
      · rintro v es v' q ⟨d, v₁, es₁, es₂, rfl, ⟨rfl, hd⟩, hq⟩ hv
        obtain rfl : stopped = false := Bool.not_eq_true _ ▸ h
        subst hv
        exact Or.inr ⟨rfl, d, _, es₁, es₂, rfl, rfl, hd, hq⟩
    · rintro v es v' q ⟨⟨n, r⟩, v₁, es₁, _, rfl, hroot, _, v₂, _, _, rfl, ⟨rfl, hmono₁⟩, stopped, v₃, _,
        es₄, rfl, ⟨rfl, rfl, hmono₂⟩, hrest⟩
      rw [List.nil_append, List.nil_append]
      rcases hrest rfl with ⟨rfl, rfl, rfl, rfl⟩ | ⟨rfl, d, v₄, es₅, es₆, rfl, rfl, hd, hq⟩
      · rw [List.append_nil]
        exact .stopped hroot
      · have h₁ : v₁ = false := by
          cases v₁ with
          | false => rfl
          | true => exact (hmono₂ (hmono₁ rfl)).symm
        subst h₁
        rcases hq with ⟨a, b, rfl, hagain⟩ | ⟨rfl, rfl, rfl⟩
        · exact .again hroot rfl hd hagain
        · rw [List.append_nil]
          exact .decided hroot rfl hd

theorem iterateLoop_refines (fuel n rootdepth : Nat) (node : Node) (best : Move) (alpha beta : Int) :
    Refines (observe hashed) (iterateLoop env fuel rootdepth n node best alpha beta)
      (fun v es v' p => Iterates env hashed rootdepth node best alpha beta v es v' p) := by
  induction n generalizing rootdepth node best alpha beta with
  | zero =>
    refine (Refines.pure _).mono ?_
    rintro v es v' p ⟨rfl, rfl, rfl⟩
    exact .rest
  | succ n ih =>
    refine ((iteration_refines fuel rootdepth againFuel node best alpha beta).bind
      (S := fun p v es v' q => match p.2 with
        | .stop best' => v' = v ∧ es = [] ∧ q = (p.1, best')
        | .again _ _ => v' = v ∧ es = [] ∧ q = (p.1, best)
        | .deeper best' a b => (v' = v ∧ es = [] ∧ q = (p.1, best')) ∨
          Iterates env hashed (rootdepth + 1) p.1 best' a b v es v' q) fun p => ?_).mono ?_
    · obtain ⟨n', d⟩ := p
      cases d with
      | stop best' => exact Refines.pure _
      | again a b => exact Refines.pure _
      | deeper best' a b =>
        have htick : Refines (observe hashed) tick (fun v es v' _ => v' = v ∧ es = []) :=
          refines_of_done fun _ h => ⟨_, _, [], rfl, h, (List.append_nil _).symm, rfl, rfl⟩
        refine (htick.bind (S := fun _ v es v' q => (v' = v ∧ es = [] ∧ q = (n', best')) ∨
          Iterates env hashed (rootdepth + 1) n' best' a b v es v' q) fun t =>
            .ite (fun _ => (Refines.pure _).mono fun v es v' q hq => Or.inl hq) fun _ =>
              (ih (rootdepth + 1) n' best' a b).mono fun v es v' q hq => Or.inr hq).mono ?_
        rintro v es v' q ⟨_, v₁, _, es₂, rfl, ⟨rfl, rfl⟩, hrest⟩
        exact hrest
    · rintro v es v' q ⟨⟨n', d⟩, v₁, es₁, es₂, rfl, hiter, hrest⟩
      cases d with
      | stop best' =>
        obtain ⟨rfl, rfl, rfl⟩ := hrest
        rw [List.append_nil]
        exact .stop hiter
      | again a b =>
        obtain ⟨rfl, rfl, rfl⟩ := hrest
        rw [List.append_nil]
        exact .again hiter
      | deeper best' a b =>
        rcases hrest with ⟨rfl, rfl, rfl⟩ | hrest
        · rw [List.append_nil]
          exact .late hiter
        · exact .deeper hiter hrest

/-- **`iterate` refines the relation.** -/
theorem iterate_refines (fuel depth : Nat) (node : Node) :
    Refines (observe hashed) (iterate env fuel depth node) (fun v es v' p =>
      Iterates env hashed 1 node node.getBestMove (-infty) infty v es v' p) := by
  have hreset : Refines (observe hashed) (modify (fun st => { st with
      stopIteration := false, ply1PvlineMap := fun _ => none })) (fun v es v' _ => v' = v ∧ es = []) :=
    refines_of_done fun _ h => ⟨_, _, [], rfl, h, (List.append_nil _).symm, rfl, rfl⟩
  refine (hreset.bind fun _ => iterateLoop_refines fuel depth 1 node _ _ _).mono ?_
  rintro v es v' p ⟨_, v₁, _, es₂, rfl, ⟨rfl, rfl⟩, hrest⟩
  exact hrest

end Iterate

end Search

end HoiChess
