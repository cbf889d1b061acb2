import Mathlib.Order.Defs.Unbundled
import Mathlib.Data.List.Nodup
import Mathlib.Data.List.Basic

/-!
# Ordered maps

A map holds its entries in strictly ascending order of their keys, for any strict total
order of the keys.  `update` changes the value of one key, which it inserts if it is missing;
what a whole list of updates makes of a key depends on the elements that belong to the key alone
(`find_collect`).
-/

/-- A map from keys to values. -/
structure OrderedMap (K V : Type) (less : K → K → Prop) where
  entries : List (K × V)
  ascending : (entries.map Prod.fst).Pairwise less

namespace OrderedMap

variable {K V A : Type} {less : K → K → Prop}

def empty : OrderedMap K V less := ⟨[], List.Pairwise.nil⟩

/-- The value of a key, if the map has the key. -/
def find [DecidableEq K] (m : OrderedMap K V less) (k : K) : Option V := m.entries.lookup k

section Update

variable (less) [DecidableRel less] (init : V) (k : K) (f : V → V)

/-- The entries with the value of a key changed. -/
def updateList : List (K × V) → List (K × V)
  | [] => [(k, f init)]
  | (k', v) :: m =>
    if less k k' then (k, f init) :: (k', v) :: m
    else if less k' k then (k', v) :: updateList m
    else (k', f v) :: m

variable {less init k f}

theorem mem_updateList_keys {m : List (K × V)} {k' : K}
    (h : k' ∈ (updateList less init k f m).map Prod.fst) : k' = k ∨ k' ∈ m.map Prod.fst := by
  induction m with
  | nil => exact .inl (by simpa [updateList] using h)
  | cons e m ih =>
    unfold updateList at h
    split at h
    · simpa using h
    · split at h
      · rcases List.mem_cons.mp h with rfl | hmem
        · exact .inr List.mem_cons_self
        · exact (ih hmem).imp_right (List.mem_cons_of_mem _)
      · exact .inr h

variable [IsStrictTotalOrder K less]

theorem updateList_ascending {m : List (K × V)} (h : (m.map Prod.fst).Pairwise less) :
    ((updateList less init k f m).map Prod.fst).Pairwise less := by
  induction m with
  | nil => exact List.pairwise_singleton _ _
  | cons e m ih =>
    obtain ⟨hhead, htail⟩ := List.pairwise_cons.mp h
    unfold updateList
    split
    · rename_i hlt
      refine List.pairwise_cons.mpr ⟨fun k' hk' => ?_, h⟩
      rcases List.mem_cons.mp hk' with rfl | hk'
      · exact hlt
      · exact IsTrans.trans _ _ _ hlt (hhead k' hk')
    · split
      · rename_i hlt
        refine List.pairwise_cons.mpr ⟨fun k' hk' => ?_, ih htail⟩
        rcases mem_updateList_keys hk' with rfl | hk'
        · exact hlt
        · exact hhead k' hk'
      · exact h

/-- `m[k] = f(m[k])`, where a missing key gets the value `init` first. -/
def update (init : V) (k : K) (f : V → V) (m : OrderedMap K V less) : OrderedMap K V less where
  entries := updateList less init k f m.entries
  ascending := updateList_ascending m.ascending

end Update

section Lookup

variable [DecidableEq K] [IsStrictTotalOrder K less]

omit [DecidableEq K] in
theorem nodup_keys (m : OrderedMap K V less) : (m.entries.map Prod.fst).Nodup := by
  refine m.ascending.imp ?_
  rintro k _ hless rfl
  exact irrefl_of less k hless

/-- **The entries are the values of the keys.** -/
theorem mem_entries_iff (m : OrderedMap K V less) {k : K} {v : V} :
    (k, v) ∈ m.entries ↔ m.find k = some v := by
  obtain ⟨l, hl⟩ := m
  show (k, v) ∈ l ↔ l.lookup k = some v
  induction l with
  | nil => simp
  | cons e l ih =>
    obtain ⟨hhead, htail⟩ := List.pairwise_cons.mp hl
    obtain ⟨k', v'⟩ := e
    rw [List.mem_cons, List.lookup_cons]
    rcases eq_or_ne k k' with rfl | hne
    · have hfresh : (k, v) ∉ l := fun hmem =>
        irrefl_of less k (hhead k (List.mem_map.mpr ⟨_, hmem, rfl⟩))
      simp [hfresh, eq_comm]
    · simpa [hne, beq_false_of_ne hne] using ih htail

theorem find_update [DecidableRel less] (m : OrderedMap K V less) (init : V) (k k' : K)
    (f : V → V) : (m.update init k f).find k' =
      if k' = k then some (f ((m.find k).getD init)) else m.find k' := by
  obtain ⟨l, hl⟩ := m
  show (updateList less init k f l).lookup k' =
    if k' = k then some (f ((l.lookup k).getD init)) else l.lookup k'
  induction l with
  | nil =>
    rcases eq_or_ne k' k with rfl | hne
    · simp [updateList]
    · simp [updateList, hne]
  | cons e l ih =>
    obtain ⟨hhead, htail⟩ := List.pairwise_cons.mp hl
    obtain ⟨k₀, v₀⟩ := e
    unfold updateList
    split
    · rename_i hlt
      have hmissing : ((k₀, v₀) :: l).lookup k = none := by
        rw [List.lookup_eq_none_iff]
        intro e he
        have hless : less k e.1 := by
          rcases List.mem_cons.mp he with rfl | he
          · exact hlt
          · exact IsTrans.trans _ _ _ hlt (hhead e.1 (List.mem_map.mpr ⟨e, he, rfl⟩))
        have hne : k ≠ e.1 := fun heq => irrefl_of less k (heq ▸ hless)
        simpa using hne
      rw [hmissing, List.lookup_cons]
      rcases eq_or_ne k' k with rfl | hne
      · simp
      · simp [hne, beq_false_of_ne hne]
    · rename_i hnlt
      split
      · rename_i hlt
        have hne : k ≠ k₀ := fun heq => irrefl_of less k (heq ▸ hlt)
        rw [List.lookup_cons, ih htail, List.lookup_cons, List.lookup_cons, beq_false_of_ne hne]
        rcases eq_or_ne k' k with rfl | hne'
        · simp [beq_false_of_ne hne]
        · simp [hne']
      · rename_i hngt
        obtain rfl : k = k₀ := Std.Trichotomous.trichotomous k k₀ hnlt hngt
        rw [List.lookup_cons, List.lookup_cons, List.lookup_cons]
        rcases eq_or_ne k' k with rfl | hne'
        · simp
        · simp [hne', beq_false_of_ne hne']

end Lookup

/-! ## Lists of updates -/

section Collect

variable [DecidableEq K] [DecidableRel less] [IsStrictTotalOrder K less]

/-- One update for each element of a list. -/
def collect (init : V) (key : A → K) (step : V → A → V) (l : List A) : OrderedMap K V less :=
  l.foldl (fun m a => m.update init (key a) (step · a)) empty

theorem find_foldl (init : V) (key : A → K) (step : V → A → V) (l : List A)
    (m : OrderedMap K V less) (k : K) :
    (l.foldl (fun m a => m.update init (key a) (step · a)) m).find k =
      if l.filter (key · = k) = [] then m.find k
      else some ((l.filter (key · = k)).foldl step ((m.find k).getD init)) := by
  induction l generalizing m with
  | nil => simp
  | cons a l ih =>
    rw [List.foldl_cons, ih, find_update]
    rcases eq_or_ne (key a) k with rfl | hne
    · rw [List.filter_cons_of_pos (by simp)]
      simp only [if_true, Option.getD_some, List.foldl_cons, reduceCtorEq, if_false]
      split
      · rename_i hnil
        rw [hnil, List.foldl_nil]
      · rfl
    · rw [List.filter_cons_of_neg (by simpa using hne), if_neg (Ne.symm hne)]

/-- **What a list of updates makes of a key.** -/
theorem find_collect (init : V) (key : A → K) (step : V → A → V) (l : List A) (k : K) :
    (collect init key step l : OrderedMap K V less).find k =
      if l.filter (key · = k) = [] then none
      else some ((l.filter (key · = k)).foldl step init) :=
  find_foldl init key step l empty k

end Collect

end OrderedMap
