import Mathlib.Data.List.Basic

/-!
# Bracketed use of a stack

A program that takes from a stack and gives back leaves a sequence of operations.
`Replays` runs such a sequence on the stack of what is in use; it gets stuck where something
else than the last one taken is given back.  `Balanced` sequences leave every stack as it was.
-/

namespace Brackets

/-- Something is taken, or given back. -/
inductive Op (α : Type) where
  | push (a : α)
  | pop (a : α)

/-- The operations lead from one stack to another one. -/
inductive Replays {α : Type} : List α → List (Op α) → List α → Prop
  | nil {live} : Replays live [] live
  | push {a live es live'} : Replays (a :: live) es live' → Replays live (.push a :: es) live'
  | pop {a live es live'} : Replays live es live' → Replays (a :: live) (.pop a :: es) live'

variable {α : Type} {live live₁ live' : List α} {a : α} {es es' : List (Op α)}

theorem Replays.append (h : Replays live es live₁) (h' : Replays live₁ es' live') :
    Replays live (es ++ es') live' := by
  induction h with
  | nil => exact h'
  | push _ ih => exact .push (ih h')
  | pop _ ih => exact .pop (ih h')

theorem Replays.of_append (h : Replays live (es ++ es') live') :
    ∃ live₁, Replays live es live₁ ∧ Replays live₁ es' live' := by
  induction es generalizing live with
  | nil => exact ⟨live, .nil, h⟩
  | cons e es ih =>
    cases h with
    | push h =>
      obtain ⟨live₁, h₁, h₂⟩ := ih h
      exact ⟨live₁, .push h₁, h₂⟩
    | pop h =>
      obtain ⟨live₁, h₁, h₂⟩ := ih h
      exact ⟨live₁, .pop h₁, h₂⟩

/-- **What is given back is what was taken last.** -/
theorem Replays.pop_top (h : Replays live (es ++ .pop a :: es') live') :
    ∃ rest, Replays live es (a :: rest) := by
  obtain ⟨live₁, h₁, h₂⟩ := h.of_append
  cases h₂ with
  | @pop _ rest => exact ⟨rest, h₁⟩

/-- The operations leave every stack as it was. -/
def Balanced (es : List (Op α)) : Prop := ∀ live, Replays live es live

/-- The operations give back what lies on top, and nothing else. -/
def Closes (a : α) (es : List (Op α)) : Prop := ∀ live, Replays (a :: live) es live

theorem balanced_nil : Balanced ([] : List (Op α)) := fun _ => .nil

theorem Balanced.append (h : Balanced es) (h' : Balanced es') : Balanced (es ++ es') :=
  fun live => (h live).append (h' live)

theorem closes_pop (a : α) : Closes a [.pop a] := fun _ => .pop .nil

theorem Closes.push (h : Closes a es) : Balanced (.push a :: es) := fun live => .push (h live)

theorem Balanced.closes (h : Balanced es) (h' : Closes a es') : Closes a (es ++ es') :=
  fun live => (h (a :: live)).append (h' live)

theorem Closes.balanced (h : Closes a es) (h' : Balanced es') : Closes a (es ++ es') :=
  fun live => (h live).append (h' live)

end Brackets
