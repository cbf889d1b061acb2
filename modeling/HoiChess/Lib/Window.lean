import Mathlib.Order.Lattice
import Mathlib.Algebra.Order.Group.Int

/-!
# Values seen through a window

A search with a window `(a, b)` returns the value of a node only as `clamp a b`
of it.  A `Bound` is what is known of a value: the value itself, or that it is
at most or at least some score.  `Bound.resolve` answers another window from a
bound; a bound answers every window correctly exactly if it holds
(`Bound.answers_iff_holds`).
-/

namespace Window

section Order

variable {α : Type} [LinearOrder α]

/-- The value `v` as a search with the window `(a, b)` reports it. -/
def clamp (a b v : α) : α := max a (min b v)

variable {a b v : α}

theorem clamp_of_le (h : v ≤ a) (hab : a ≤ b) : clamp a b v = a := by
  rw [clamp, min_eq_right (h.trans hab), max_eq_left h]

theorem clamp_of_ge (h : b ≤ v) (hab : a ≤ b) : clamp a b v = b := by
  rw [clamp, min_eq_left h, max_eq_right hab]

theorem clamp_of_mem (ha : a ≤ v) (hb : v ≤ b) : clamp a b v = v := by
  rw [clamp, min_eq_right hb, max_eq_right ha]

theorem le_clamp : a ≤ clamp a b v := le_max_left _ _

theorem clamp_le (hab : a ≤ b) : clamp a b v ≤ b := max_le hab (min_le_left _ _)

theorem clamp_lt_iff (hab : a < b) : clamp a b v < b ↔ v < b := by
  rw [clamp, max_lt_iff, min_lt_iff]
  exact ⟨fun h => h.2.resolve_left (lt_irrefl b), fun h => ⟨hab, Or.inr h⟩⟩

theorem lt_clamp_iff (hab : a < b) : a < clamp a b v ↔ a < v := by
  rw [clamp, lt_max_iff, lt_min_iff]
  exact ⟨fun h => (h.resolve_left (lt_irrefl a)).2, fun h => Or.inr ⟨hab, h⟩⟩

theorem le_clamp_iff (hab : a < b) : b ≤ clamp a b v ↔ b ≤ v := by
  rw [← not_lt, clamp_lt_iff hab, not_lt]

theorem clamp_le_iff (hab : a < b) : clamp a b v ≤ a ↔ v ≤ a := by
  rw [← not_lt, lt_clamp_iff hab, not_lt]

/-- Strictly inside its window a reported value is the value. -/
theorem clamp_eq_self (ha : a < clamp a b v) (hb : clamp a b v < b) : clamp a b v = v := by
  have hab : a < b := ha.trans hb
  exact clamp_of_mem ((lt_clamp_iff hab).mp ha).le ((clamp_lt_iff hab).mp hb).le

/-! ## Bounds -/

/-- What is known of a value. -/
inductive Bound (α : Type) where
  | exact (s : α)
  | atMost (s : α)
  | atLeast (s : α)
  deriving DecidableEq

namespace Bound

def Holds : Bound α → α → Prop
  | .exact s, v => v = s
  | .atMost s, v => v ≤ s
  | .atLeast s, v => s ≤ v

/-- The answer of a bound to the window `(a, b)`, if it has one. -/
def resolve (a b : α) : Bound α → Option α
  | .exact s => some (clamp a b s)
  | .atMost s => if s ≤ a then some (clamp a b s) else none
  | .atLeast s => if b ≤ s then some (clamp a b s) else none

/-- All answers are those of the value `v`. -/
def Answers (bd : Bound α) (v : α) : Prop :=
  ∀ a b, a < b → ∀ r, bd.resolve a b = some r → r = clamp a b v

theorem Holds.answers {bd : Bound α} (h : bd.Holds v) : bd.Answers v := by
  intro a b hab r hr
  cases bd with
  | exact s =>
    cases hr
    exact congrArg (clamp a b) h.symm
  | atMost s =>
    obtain ⟨hs, hr⟩ := Option.ite_none_right_eq_some.mp hr
    cases hr
    have hv : v ≤ a := le_trans h hs
    rw [clamp_of_le hs hab.le, clamp_of_le hv hab.le]
  | atLeast s =>
    obtain ⟨hs, hr⟩ := Option.ite_none_right_eq_some.mp hr
    cases hr
    have hv : b ≤ v := le_trans hs h
    rw [clamp_of_ge hs hab.le, clamp_of_ge hv hab.le]

/-- A wrong bound gives itself away on the window between its score and the value. -/
theorem holds_of_answers {bd : Bound α} (h : bd.Answers v) : bd.Holds v := by
  cases bd with
  | exact s =>
    by_contra hne
    rcases lt_or_gt_of_ne hne with hlt | hgt
    · have := h v s hlt s (congrArg some (clamp_of_ge le_rfl hlt.le))
      rw [clamp_of_le le_rfl hlt.le] at this
      exact hlt.ne this.symm
    · have := h s v hgt s (congrArg some (clamp_of_le le_rfl hgt.le))
      rw [clamp_of_ge le_rfl hgt.le] at this
      exact hgt.ne this
  | atMost s =>
    by_contra hlt
    have hlt : s < v := not_le.mp hlt
    have := h s v hlt s (by rw [resolve, if_pos le_rfl, clamp_of_le le_rfl hlt.le])
    rw [clamp_of_ge le_rfl hlt.le] at this
    exact hlt.ne this
  | atLeast s =>
    by_contra hlt
    have hlt : v < s := not_le.mp hlt
    have := h v s hlt s (by rw [resolve, if_pos le_rfl, clamp_of_ge le_rfl hlt.le])
    rw [clamp_of_le le_rfl hlt.le] at this
    exact hlt.ne this.symm

/-- **A bound answers every window as the value would exactly if it holds of the value.** -/
theorem answers_iff_holds {bd : Bound α} : bd.Answers v ↔ bd.Holds v :=
  ⟨holds_of_answers, Holds.answers⟩

end Bound

end Order

end Window
