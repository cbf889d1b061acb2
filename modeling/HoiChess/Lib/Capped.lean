import HoiChess.Lib.SwapFilter

/-!
# Arrays of bounded size

A list that takes at most `n` elements: adding to a full one does nothing.  As long as there
is room, adding appends (`addAll_entries`); filtering in place keeps what the plain
`filter` keeps, in some order (`filter_perm`).
-/

structure Capped (n : Nat) (α : Type) where
  entries : List α
  length_le : entries.length ≤ n

namespace Capped

variable {n : Nat} {α : Type}

def empty : Capped n α := ⟨[], Nat.zero_le n⟩

def add (c : Capped n α) (a : α) : Capped n α :=
  if h : c.entries.length < n then ⟨c.entries ++ [a], by rw [List.length_append]; exact h⟩ else c

def addAll (c : Capped n α) (l : List α) : Capped n α := l.foldl add c

/-- Drop what is not to be kept, by swapping it with the last element. -/
def filter (c : Capped n α) (keep : α → Bool) : Capped n α :=
  ⟨SwapFilter.run keep c.entries, Nat.le_trans (SwapFilter.run_length_le _ _) c.length_le⟩

@[simp] theorem entries_empty : (empty : Capped n α).entries = [] := rfl

theorem entries_add {c : Capped n α} (h : c.entries.length < n) (a : α) :
    (c.add a).entries = c.entries ++ [a] := by
  rw [add, dif_pos h]

/-- **As long as there is room, nothing is dropped.** -/
theorem addAll_entries {c : Capped n α} {l : List α} (h : c.entries.length + l.length ≤ n) :
    (c.addAll l).entries = c.entries ++ l := by
  induction l generalizing c with
  | nil => simp [addAll]
  | cons a l ih =>
    rw [List.length_cons] at h
    have hadd := entries_add (c := c) (by omega) a
    have hrest : ((c.add a).addAll l).entries = (c.add a).entries ++ l :=
      ih (by rw [hadd, List.length_append, List.length_singleton]; omega)
    rw [addAll, List.foldl_cons]
    rw [addAll] at hrest
    rw [hrest, hadd, List.append_assoc, List.singleton_append]

/-- Nothing else gets in. -/
theorem mem_of_mem_addAll {c : Capped n α} {l : List α} {x : α} (h : x ∈ (c.addAll l).entries) :
    x ∈ c.entries ∨ x ∈ l := by
  induction l generalizing c with
  | nil => exact Or.inl h
  | cons a l ih =>
    rcases ih (show x ∈ ((c.add a).addAll l).entries from h) with h | h
    · unfold add at h
      split at h
      · rcases List.mem_append.mp h with h | h
        · exact Or.inl h
        · exact Or.inr (List.mem_cons.mpr (Or.inl (List.mem_singleton.mp h)))
      · exact Or.inl h
    · exact Or.inr (List.mem_cons_of_mem a h)

/-- **Filtering in place is filtering**, up to the order. -/
theorem filter_perm (c : Capped n α) (keep : α → Bool) :
    (c.filter keep).entries.Perm (c.entries.filter keep) :=
  SwapFilter.run_perm keep c.entries

end Capped
