import Mathlib.Data.List.Perm.Basic
import Mathlib.Data.List.Nodup

/-!
# In-place filtering by swapping with the last element

To drop an element of an array without moving the others, overwrite it by
the last one and shrink the array; the index stays, since an unseen element
has taken its place.  `run` is that loop and `run_perm` its specification:
the survivors are the elements of the plain `filter`, with multiplicities,
in some order.
-/

namespace SwapFilter

variable {α : Type}

/-- `swap(i, size-1); size--` -/
def swapRemove (l : List α) (i : Nat) : List α :=
  match l.getLast? with
  | none => l
  | some z => (l.set i z).dropLast

/-- `for (; i < size; i++) if (!keep(l[i])) { swap(i, size-1); size--; i--; }`;
every round decreases `size - i`. -/
def loop (keep : α → Bool) : Nat → Nat → List α → List α
  | 0, _, l => l
  | fuel + 1, i, l =>
    match l[i]? with
    | none => l
    | some a => if keep a then loop keep fuel (i + 1) l else loop keep fuel i (swapRemove l i)

def run (keep : α → Bool) (l : List α) : List α := loop keep l.length 0 l

/-- Removing behind a prefix keeps the prefix and permutes the rest. -/
theorem swapRemove_append (pre : List α) (a : α) (rest : List α) :
    ∃ rest', swapRemove (pre ++ a :: rest) pre.length = pre ++ rest' ∧ rest'.Perm rest := by
  rcases List.eq_nil_or_concat rest with rfl | ⟨r, z, rfl⟩
  · refine ⟨[], ?_, .nil⟩
    simp [swapRemove]
  · refine ⟨z :: r, ?_, ?_⟩
    · have hl : (pre ++ a :: r.concat z).getLast? = some z := by
        rw [List.concat_eq_append, ← List.cons_append, ← List.append_assoc,
          List.getLast?_append]
        rfl
      rw [swapRemove, hl]
      simp only [List.set_append_right _ _ (Nat.le_refl _), Nat.sub_self, List.set_cons_zero,
        List.concat_eq_append]
      rw [← List.cons_append, ← List.append_assoc, List.dropLast_concat]
    · rw [List.concat_eq_append]
      exact (List.perm_append_singleton z r).symm

theorem loop_append (keep : α → Bool) (fuel : Nat) (pre rest : List α)
    (h : rest.length ≤ fuel) :
    ∃ rest', loop keep fuel pre.length (pre ++ rest) = pre ++ rest' ∧
      rest'.Perm (rest.filter keep) := by
  induction fuel generalizing pre rest with
  | zero =>
    have : rest = [] := List.length_eq_zero_iff.mp (by omega)
    subst this
    exact ⟨[], rfl, .nil⟩
  | succ fuel ih =>
    cases rest with
    | nil =>
      refine ⟨[], ?_, .nil⟩
      simp [loop]
    | cons a rest =>
      have ha : (pre ++ a :: rest)[pre.length]? = some a := by simp
      simp only [List.length_cons] at h
      rw [loop, ha]
      simp only
      cases hk : keep a with
      | true =>
        obtain ⟨rest', hr, hp⟩ := ih (pre ++ [a]) rest (by omega)
        refine ⟨a :: rest', ?_, ?_⟩
        · simpa using hr
        · simpa [hk] using hp
      | false =>
        obtain ⟨rest', hr, hp⟩ := swapRemove_append pre a rest
        have hlen := hp.length_eq
        obtain ⟨rest'', hr', hp'⟩ := ih pre rest' (by omega)
        refine ⟨rest'', ?_, ?_⟩
        · simpa [hr] using hr'
        · simpa [hk] using hp'.trans (hp.filter keep)

/-- Rounds beyond the rest of the list change nothing. -/
theorem loop_fuel (keep : α → Bool) {fuel fuel' i : Nat} {l : List α} (h : l.length - i ≤ fuel)
    (h' : l.length - i ≤ fuel') : loop keep fuel i l = loop keep fuel' i l := by
  induction fuel generalizing fuel' i l with
  | zero =>
    have hnone : l[i]? = none := List.getElem?_eq_none (by omega)
    cases fuel' with
    | zero => rfl
    | succ fuel' => simp only [loop, hnone]
  | succ fuel ih =>
    cases ha : l[i]? with
    | none =>
      cases fuel' with
      | zero => simp only [loop, ha]
      | succ fuel' => simp only [loop, ha]
    | some a =>
      obtain ⟨hi, _⟩ := List.getElem?_eq_some_iff.mp ha
      cases fuel' with
      | zero => omega
      | succ fuel' =>
        have hlen : (swapRemove l i).length = l.length - 1 := by
          rw [swapRemove]
          split
          · rename_i hnone
            rw [List.getLast?_eq_none_iff] at hnone
            subst hnone
            rfl
          · rw [List.length_dropLast, List.length_set]
        simp only [loop, ha]
        split
        · exact ih (by omega) (by omega)
        · exact ih (by omega) (by omega)

/-- **The loop keeps exactly the elements of the plain filter.** -/
theorem run_perm (keep : α → Bool) (l : List α) : (run keep l).Perm (l.filter keep) := by
  obtain ⟨rest', hr, hp⟩ := loop_append keep l.length [] l (Nat.le_refl _)
  rw [List.nil_append, List.nil_append, List.length_nil] at hr
  rw [run, hr]
  exact hp

theorem mem_run {keep : α → Bool} {l : List α} {a : α} :
    a ∈ run keep l ↔ a ∈ l ∧ keep a = true := by
  rw [(run_perm keep l).mem_iff, List.mem_filter]

theorem run_length_le (keep : α → Bool) (l : List α) : (run keep l).length ≤ l.length := by
  rw [(run_perm keep l).length_eq]
  exact List.length_filter_le _ _

end SwapFilter
