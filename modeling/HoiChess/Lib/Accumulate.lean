import Mathlib.Algebra.Order.Ring.Abs
import Mathlib.Tactic.Linarith

/-!
# Accumulating a sum

`sums a l` are the values that an accumulator runs through in `for (x in l) a += x`.  None of
them is further from the first one than the `weight` of the list, the sum of the sizes.
-/

namespace Accumulate

/-- The values of the accumulator, the first one included. -/
def sums (a : Int) : List Int → List Int
  | [] => [a]
  | x :: l => a :: sums (a + x) l

def weight (l : List Int) : Int := (l.map abs).sum

variable {a x m : Int} {l l' : List Int}

@[simp] theorem weight_nil : weight [] = 0 := rfl

@[simp] theorem weight_cons : weight (x :: l) = |x| + weight l := List.sum_cons

@[simp] theorem weight_append : weight (l ++ l') = weight l + weight l' := by simp [weight]

theorem weight_nonneg (l : List Int) : 0 ≤ weight l := by
  induction l with
  | nil => exact le_rfl
  | cons x l ih =>
    rw [weight_cons]
    exact add_nonneg (abs_nonneg x) ih

theorem abs_sum_le (l : List Int) : |l.sum| ≤ weight l := by
  induction l with
  | nil => simp
  | cons x l ih =>
    rw [List.sum_cons, weight_cons]
    exact (abs_add_le x l.sum).trans (add_le_add le_rfl ih)

/-- **The accumulator never leaves the weight of the list.** -/
theorem abs_sums_le (l : List Int) (a : Int) : ∀ s ∈ sums a l, |s| ≤ |a| + weight l := by
  induction l generalizing a with
  | nil => simp [sums]
  | cons x l ih =>
    have hw := weight_nonneg l
    have hx := abs_nonneg x
    have hadd := abs_add_le a x
    intro s hs
    rw [weight_cons]
    rcases List.mem_cons.mp hs with rfl | hs
    · linarith
    · have hrest := ih (a + x) s hs
      linarith

theorem abs_le_weight (h : x ∈ l) : |x| ≤ weight l := by
  induction l with
  | nil => cases h
  | cons y l ih =>
    have hy := abs_nonneg y
    have hl := weight_nonneg l
    rw [weight_cons]
    rcases List.mem_cons.mp h with rfl | h
    · linarith
    · have hrest := ih h
      linarith

/-- Differences weigh no more than what is subtracted from each other. -/
theorem weight_zipWith_sub_le (l l' : List Int) :
    weight (List.zipWith (fun x y => x - y) l l') ≤ weight l + weight l' := by
  induction l generalizing l' with
  | nil => simpa using weight_nonneg l'
  | cons x l ih =>
    cases l' with
    | nil => simpa using add_nonneg (abs_nonneg x) (weight_nonneg l)
    | cons y l' =>
      have hxy := abs_sub x y
      have hrest := ih l'
      simp only [List.zipWith_cons_cons, weight_cons]
      linarith

section Parts

variable {ls : List (List Int)}

theorem weight_le_flatten (h : l ∈ ls) : weight l ≤ weight ls.flatten := by
  induction ls with
  | nil => cases h
  | cons l' ls ih =>
    have h1 := weight_nonneg l'
    have h2 := weight_nonneg ls.flatten
    rw [List.flatten_cons, weight_append]
    rcases List.mem_cons.mp h with rfl | h
    · linarith
    · have hrest := ih h
      linarith

/-- To add up in parts makes nothing weigh more. -/
theorem weight_map_sum_le (ls : List (List Int)) : weight (ls.map List.sum) ≤ weight ls.flatten := by
  induction ls with
  | nil => exact le_rfl
  | cons l ls ih =>
    rw [List.map_cons, List.flatten_cons, weight_cons, weight_append]
    exact add_le_add (abs_sum_le l) ih

end Parts

section Loops

variable {ι : Type} {f : ι → List Int} {is : List ι}

/-- A loop whose body adds little in each round. -/
theorem weight_flatMap_le (h : ∀ i ∈ is, weight (f i) ≤ m) : weight (is.flatMap f) ≤ is.length * m := by
  induction is with
  | nil => simp
  | cons i is ih =>
    have h1 := h i List.mem_cons_self
    have h2 := ih fun j hj => h j (List.mem_cons_of_mem i hj)
    rw [List.flatMap_cons, weight_append, List.length_cons]
    push_cast
    linarith

theorem weight_map_le {g : ι → Int} (h : ∀ i ∈ is, |g i| ≤ m) : weight (is.map g) ≤ is.length * m := by
  rw [List.map_eq_flatMap]
  exact weight_flatMap_le fun i hi => by simpa using h i hi

theorem sum_flatMap (is : List ι) : (is.flatMap f).sum = (is.map fun i => (f i).sum).sum := by
  induction is with
  | nil => rfl
  | cons i is ih => rw [List.flatMap_cons, List.sum_append, List.map_cons, List.sum_cons, ih]

end Loops

end Accumulate
