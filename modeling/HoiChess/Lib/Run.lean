import Mathlib.Data.List.Basic

/-!
# Runs of a state machine

`Along Q s as` says that every action of a run meets the condition `Q` when
its turn comes, `Visits P s as` that `P` holds in every state of the run.
`visits_iff_along` turns a statement about one step into one about runs.
-/

namespace Run

section Steps

variable {S A : Type} (step : S → A → S)

def run (s : S) (as : List A) : S := as.foldl step s

/-- Every action meets `Q` when its turn comes. -/
def Along (Q : S → A → Prop) : S → List A → Prop
  | _, [] => True
  | s, a :: as => Q s a ∧ Along Q (step s a) as

/-- Every state of the run, the first and the last included, satisfies `P`. -/
def Visits (P : S → Prop) : S → List A → Prop
  | s, [] => P s
  | s, a :: as => P s ∧ Visits P (step s a) as

variable {step} {P : S → Prop} {Q R : S → A → Prop}

theorem visits_iff (s : S) (as : List A) :
    Visits step P s as ↔ ∀ n ≤ as.length, P (run step s (as.take n)) := by
  induction as generalizing s with
  | nil => simp [Visits, run]
  | cons a as ih =>
    rw [Visits, ih]
    constructor
    · rintro ⟨h0, h⟩ n hn
      cases n with
      | zero => exact h0
      | succ n => exact h n (Nat.le_of_succ_le_succ hn)
    · intro h
      exact ⟨h 0 (Nat.zero_le _), fun n hn => h (n + 1) (Nat.succ_le_succ hn)⟩

theorem Along.and {s : S} {as : List A} (hq : Along step Q s as) (hr : Along step R s as) :
    Along step (fun s a => Q s a ∧ R s a) s as := by
  induction as generalizing s with
  | nil => trivial
  | cons a as ih => exact ⟨⟨hq.1, hr.1⟩, ih hq.2 hr.2⟩

/-- What follows from an invariant and a condition holds along the run. -/
theorem Along.of_invariant {s : S} {as : List A} (h : Along step Q s as) (hs : P s)
    (hstep : ∀ s a, P s → Q s a → P (step s a) ∧ R s a) : Along step R s as := by
  induction as generalizing s with
  | nil => trivial
  | cons a as ih =>
    obtain ⟨hs', hr⟩ := hstep s a hs h.1
    exact ⟨hr, ih h.2 hs'⟩

/-- **An invariant with side conditions**: what the steps keep under `Q` holds on the run. -/
theorem Along.visits {s : S} {as : List A} (h : Along step Q s as) (hs : P s)
    (hstep : ∀ s a, P s → Q s a → P (step s a)) : Visits step P s as := by
  induction as generalizing s with
  | nil => exact hs
  | cons a as ih => exact ⟨hs, ih h.2 (hstep s a hs h.1)⟩

/-- **A condition that is exact for every step is exact for every run.** -/
theorem visits_iff_along {s : S} {as : List A} (hs : P s) (hR : Along step R s as)
    (hstep : ∀ s a, P s → R s a → (P (step s a) ↔ Q s a)) :
    Visits step P s as ↔ Along step Q s as := by
  induction as generalizing s with
  | nil => exact iff_of_true hs trivial
  | cons a as ih =>
    rw [Visits, Along, and_iff_right hs]
    constructor
    · intro h
      have hs' : P (step s a) := by
        cases as with
        | nil => exact h
        | cons _ _ => exact h.1
      exact ⟨(hstep s a hs hR.1).mp hs', (ih hs' hR.2).mp h⟩
    · rintro ⟨hq, h⟩
      exact (ih ((hstep s a hs hR.1).mpr hq) hR.2).mpr h

end Steps

end Run
