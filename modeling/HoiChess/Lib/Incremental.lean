import Mathlib.Data.Fintype.Basic
import Mathlib.Data.List.Nodup
import Mathlib.Algebra.BigOperators.Group.Finset.Basic
import Mathlib.Data.Fintype.BigOperators

/-!
# Quantities that are maintained incrementally

A program that keeps a checksum or a total of a table up to date changes it
at each write by the difference of the old and the new entry.  `xorSum` is
the checksum computed from scratch and `xorSum_update` the rule that
justifies the incremental change; `sum_update` is the same rule for totals
and `card_update` for the number of entries with a given value.
-/

namespace Incremental

variable {n w : Nat}

/-- The exclusive or of all entries of a table of words. -/
def xorSum (f : Fin n → BitVec w) : BitVec w :=
  ((List.finRange n).map f).foldr (· ^^^ ·) 0#w

private theorem foldr_congr {f g : Fin n → BitVec w} (l : List (Fin n))
    (h : ∀ j ∈ l, f j = g j) :
    (l.map f).foldr (· ^^^ ·) 0#w = (l.map g).foldr (· ^^^ ·) 0#w := by
  rw [List.map_congr_left h]

private theorem foldr_update (f : Fin n → BitVec w) (i : Fin n) (v : BitVec w)
    (l : List (Fin n)) (hn : l.Nodup) (hi : i ∈ l) :
    (l.map (Function.update f i v)).foldr (· ^^^ ·) 0#w =
      (l.map f).foldr (· ^^^ ·) 0#w ^^^ f i ^^^ v := by
  induction l with
  | nil => simp at hi
  | cons j l ih =>
    obtain ⟨hj, hl⟩ := List.nodup_cons.mp hn
    by_cases hij : j = i
    · subst hij
      have hc : (l.map (Function.update f j v)).foldr (· ^^^ ·) 0#w =
          (l.map f).foldr (· ^^^ ·) 0#w := by
        apply foldr_congr
        intro k hk
        exact Function.update_of_ne (ne_of_mem_of_not_mem hk hj) v f
      simp only [List.map_cons, List.foldr_cons, hc, Function.update_self]
      rw [BitVec.xor_comm (f j), BitVec.xor_assoc _ (f j) (f j), BitVec.xor_self,
        BitVec.xor_zero, BitVec.xor_comm]
    · have hil : i ∈ l := (List.mem_cons.mp hi).resolve_left (fun e => hij e.symm)
      simp only [List.map_cons, List.foldr_cons, Function.update_of_ne hij, ih hl hil,
        BitVec.xor_assoc]

/-- **One write changes the checksum by the old and the new entry.** -/
theorem xorSum_update (f : Fin n → BitVec w) (i : Fin n) (v : BitVec w) :
    xorSum (Function.update f i v) = xorSum f ^^^ f i ^^^ v :=
  foldr_update f i v _ (List.nodup_finRange n) (List.mem_finRange i)

theorem xorSum_zero : xorSum (fun _ : Fin n => 0#w) = 0#w := by
  unfold xorSum
  induction List.finRange n with
  | nil => rfl
  | cons i l ih => simpa using ih

/-- **One write changes the total by the difference.** -/
theorem sum_update {M : Type} [AddCommGroup M] {ι : Type} [Fintype ι] [DecidableEq ι]
    (f : ι → M) (i : ι) (v : M) : ∑ j, Function.update f i v j = ∑ j, f j - f i + v := by
  rw [Finset.sum_update_of_mem (Finset.mem_univ i)]
  have := Finset.sum_sdiff_eq_sub (f := f) (Finset.subset_univ ({i} : Finset ι))
  rw [this, Finset.sum_singleton, add_comm]

/-- Number of entries with the value `a`. -/
def occurrences {ι α : Type} [Fintype ι] [DecidableEq α] (f : ι → α) (a : α) : Nat :=
  (Finset.univ.filter (fun i => f i = a)).card

theorem occurrences_update {ι α : Type} [Fintype ι] [DecidableEq ι] [DecidableEq α]
    (f : ι → α) (i : ι) (v a : α) :
    occurrences (Function.update f i v) a + (if f i = a then 1 else 0) =
      occurrences f a + (if v = a then 1 else 0) := by
  have key : ∀ g : ι → α, occurrences g a =
      (if g i = a then 1 else 0) + ((Finset.univ.erase i).filter (fun j => g j = a)).card := by
    intro g
    unfold occurrences
    conv_lhs => rw [← Finset.insert_erase (Finset.mem_univ i)]
    rw [Finset.filter_insert]
    split
    · rw [Finset.card_insert_of_notMem (by simp)]; omega
    · omega
  have hrest : (Finset.univ.erase i).filter (fun j => Function.update f i v j = a) =
      (Finset.univ.erase i).filter (fun j => f j = a) := by
    apply Finset.filter_congr
    intro j hj
    rw [Function.update_of_ne (Finset.ne_of_mem_erase hj)]
  rw [key (Function.update f i v), key f, hrest, Function.update_self]
  omega

end Incremental
