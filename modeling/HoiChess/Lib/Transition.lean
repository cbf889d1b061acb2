import Mathlib.Logic.Function.Basic

/-!
# Runs of a transition system

A step takes a state with a label to a state; the label says what was chosen and what was to be
seen.  `Under Q` admits those steps only that meet a condition, so that a run of it is a run all
of whose steps do.
-/

namespace Transition

variable {S L : Type} {step step' : S → L → S → Prop} {s t : S} {ls : List L}

/-- A run with the labels of its steps. -/
inductive Runs (step : S → L → S → Prop) (s : S) : List L → S → Prop
  | start : Runs step s [] s
  | next {ls : List L} {t t' : S} {l : L} (h : Runs step s ls t) (hstep : step t l t') :
      Runs step s (ls ++ [l]) t'

/-- The steps that meet a condition. -/
def Under (Q : S → L → Prop) (step : S → L → S → Prop) (s : S) (l : L) (t : S) : Prop :=
  Q s l ∧ step s l t

theorem Runs.mono (h : Runs step s ls t) (hsub : ∀ s l t, step s l t → step' s l t) :
    Runs step' s ls t := by
  induction h with
  | start => exact .start
  | next _ hstep ih => exact .next ih (hsub _ _ _ hstep)

variable {P : S → Prop} {R : L → Prop}

/-- **What every step keeps holds after every run.** -/
theorem Runs.invariant (h : Runs step s ls t) (hs : P s)
    (hkeep : ∀ s l t, P s → step s l t → P t) : P t := by
  induction h with
  | start => exact hs
  | next _ hstep ih => exact hkeep _ _ _ ih hstep

/-- **What every step shows under an invariant is shown all along a run.** -/
theorem Runs.along (h : Runs step s ls t) (hs : P s)
    (hkeep : ∀ s l t, P s → step s l t → P t ∧ R l) : ∀ l ∈ ls, R l := by
  induction h with
  | start => simp
  | next hrun hstep ih =>
    have hP := hrun.invariant hs fun s l t hs hstep => (hkeep s l t hs hstep).1
    intro l hl
    rcases List.mem_append.mp hl with hl | hl
    · exact ih l hl
    · obtain rfl := List.mem_singleton.mp hl
      exact (hkeep _ _ _ hP hstep).2

/-- **A run meets a condition** that follows from an invariant and from what its labels show. -/
theorem Runs.under {Q : S → L → Prop} (h : Runs step s ls t) (hs : P s)
    (hkeep : ∀ s l t, P s → R l → step s l t → P t ∧ Q s l) (hls : ∀ l ∈ ls, R l) :
    Runs (Under Q step) s ls t := by
  suffices h : P t ∧ Runs (Under Q step) s ls t from h.2
  induction h with
  | start => exact ⟨hs, .start⟩
  | next _ hstep ih =>
    obtain ⟨hP, hrun⟩ := ih fun l hl => hls l (List.mem_append_left _ hl)
    obtain ⟨hP', hQ⟩ := hkeep _ _ _ hP (hls _ (List.mem_append_right _ List.mem_cons_self)) hstep
    exact ⟨hP', .next hrun ⟨hQ, hstep⟩⟩

/-! ## Steps that can be computed -/

variable {u : S} {A O : Type}

theorem Runs.cons {l : L} (h : step s l t) (hrun : Runs step t ls u) : Runs step s (l :: ls) u := by
  induction hrun with
  | start => exact .next .start h
  | next _ hstep ih => exact .next ih hstep

/-- The steps that are chosen one by one, each with what it shows. -/
def trace (f : S → A → Option (S × O)) (s : S) : List A → Option (List (A × O) × S)
  | [] => some ([], s)
  | a :: as =>
    match f s a with
    | none => none
    | some (t, o) => (trace f t as).map fun (ls, u) => ((a, o) :: ls, u)

theorem runs_of_trace {f : S → A → Option (S × O)} {as : List A} {ls : List (A × O)}
    (h : trace f s as = some (ls, t)) : Runs (fun s l t => f s l.1 = some (t, l.2)) s ls t := by
  induction as generalizing s ls with
  | nil =>
    obtain ⟨rfl, rfl⟩ := Prod.mk.inj (Option.some.inj h)
    exact .start
  | cons a as ih =>
    simp only [trace] at h
    split at h
    · cases h
    · rename_i t' o hf
      obtain ⟨⟨ls', u⟩, htrace, he⟩ := Option.map_eq_some_iff.mp h
      obtain ⟨rfl, rfl⟩ := Prod.mk.inj he
      exact .cons hf (ih htrace)

/-- The steps that meet a condition. -/
def guarded (Q : S → A × O → Prop) [∀ s l, Decidable (Q s l)] (f : S → A → Option (S × O)) (s : S)
    (a : A) : Option (S × O) := (f s a).filter fun (_, o) => decide (Q s (a, o))

theorem runs_under_of_trace {Q : S → A × O → Prop} [∀ s l, Decidable (Q s l)]
    {f : S → A → Option (S × O)} {as : List A} {ls : List (A × O)}
    (h : trace (guarded Q f) s as = some (ls, t)) :
    Runs (Under Q fun s l t => f s l.1 = some (t, l.2)) s ls t := by
  refine (runs_of_trace h).mono fun s l t hstep => ?_
  obtain ⟨hf, hQ⟩ := Option.filter_eq_some_iff.mp hstep
  exact ⟨of_decide_eq_true hQ, hf⟩

end Transition
