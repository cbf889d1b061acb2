import Mathlib.Data.Fintype.Basic
import Mathlib.Data.List.Nodup

/-!
# Machine words as sets of bit positions

A word of width `w` is read as the set of the positions of its one bits.
`insert` and `erase` are the usual shift-and-mask updates; everything else
is the boolean algebra of the word.  A `Scan` picks one member of a nonempty
word, and `drain` is the loop that picks and clears until the word is zero:
it lists every member exactly once (`mem_drain`, `drain_nodup`), whatever
the scanning order.
-/

namespace WordSet

variable {w : Nat}

/-- `i` is a member of the word `x`. -/
def mem (x : BitVec w) (i : Fin w) : Bool := x &&& (1#w <<< i.val) != 0#w

def insert (x : BitVec w) (i : Fin w) : BitVec w := x ||| (1#w <<< i.val)

def erase (x : BitVec w) (i : Fin w) : BitVec w := x &&& ~~~(1#w <<< i.val)

theorem getLsbD_single (i j : Fin w) : (1#w <<< i.val).getLsbD j.val = decide (i = j) := by
  rw [BitVec.getLsbD_shiftLeft, BitVec.getLsbD_one]
  have hi := i.isLt
  have hj := j.isLt
  by_cases h : i = j
  · subst h; simp; omega
  · have : i.val ≠ j.val := fun e => h (Fin.ext e)
    simp only [h, decide_false, Bool.and_eq_false_imp, decide_eq_false_iff_not]
    simp; omega

theorem mem_eq_getLsbD (x : BitVec w) (i : Fin w) : mem x i = x.getLsbD i.val := by
  unfold mem
  cases hx : x.getLsbD i.val with
  | true =>
    rw [bne_iff_ne]
    intro h
    have hb : (x &&& 1#w <<< i.val).getLsbD i.val = false := by
      rw [h, BitVec.getLsbD_zero]
    rw [BitVec.getLsbD_and, hx, getLsbD_single] at hb
    simp at hb
  | false =>
    rw [bne_eq_false_iff_eq]
    apply BitVec.eq_of_getLsbD_eq
    intro j hj
    have hs := getLsbD_single i ⟨j, hj⟩
    simp only at hs
    rw [BitVec.getLsbD_and, hs, BitVec.getLsbD_zero]
    by_cases h : i = ⟨j, hj⟩
    · subst h; simp at hx ⊢; simp [hx]
    · simp [h]

theorem ext {x y : BitVec w} (h : ∀ i, mem x i = mem y i) : x = y := by
  apply BitVec.eq_of_getLsbD_eq
  intro j hj
  have := h ⟨j, hj⟩
  rwa [mem_eq_getLsbD, mem_eq_getLsbD] at this

@[simp] theorem mem_zero (i : Fin w) : mem 0#w i = false := by simp [mem]

@[simp] theorem mem_and (x y : BitVec w) (i : Fin w) :
    mem (x &&& y) i = (mem x i && mem y i) := by
  simp [mem_eq_getLsbD]

@[simp] theorem mem_or (x y : BitVec w) (i : Fin w) :
    mem (x ||| y) i = (mem x i || mem y i) := by
  simp [mem_eq_getLsbD]

@[simp] theorem mem_not (x : BitVec w) (i : Fin w) : mem (~~~x) i = !mem x i := by
  simp [mem_eq_getLsbD]

@[simp] theorem mem_insert (x : BitVec w) (i j : Fin w) :
    mem (insert x i) j = (mem x j || decide (i = j)) := by
  simp only [insert, mem_or]
  rw [mem_eq_getLsbD (1#w <<< i.val), getLsbD_single]

@[simp] theorem mem_erase (x : BitVec w) (i j : Fin w) :
    mem (erase x i) j = (mem x j && !decide (i = j)) := by
  simp only [erase, mem_and, mem_not]
  rw [mem_eq_getLsbD (1#w <<< i.val), getLsbD_single]

theorem ne_zero_iff (x : BitVec w) : x ≠ 0#w ↔ ∃ i, mem x i = true := by
  constructor
  · intro h
    by_contra hn
    apply h
    apply ext
    intro i
    cases hi : mem x i with
    | true => exact absurd ⟨i, hi⟩ hn
    | false => simp
  · rintro ⟨i, hi⟩ rfl
    simp at hi

theorem eq_zero_iff (x : BitVec w) : x = 0#w ↔ ∀ i, mem x i = false := by
  constructor
  · rintro rfl i; simp
  · intro h; apply ext; intro i; simp [h i]

/-- The word collected by setting, one after the other, the bits of a list. -/
def ofList (l : List (Fin w)) : BitVec w := l.foldl insert 0#w

theorem mem_foldl_insert (l : List (Fin w)) (x : BitVec w) (i : Fin w) :
    mem (l.foldl insert x) i = (mem x i || decide (i ∈ l)) := by
  induction l generalizing x with
  | nil => simp
  | cons j l ih =>
    rw [List.foldl_cons, ih, mem_insert, Bool.or_assoc]
    congr 1
    rw [← Bool.decide_or]
    apply decide_eq_decide.mpr
    rw [List.mem_cons, eq_comm]

@[simp] theorem mem_ofList (l : List (Fin w)) (i : Fin w) :
    mem (ofList l) i = decide (i ∈ l) := by
  simp [ofList, mem_foldl_insert]

/-! ## Scanning a word -/

/-- A way of finding some member of a nonempty word. -/
structure Scan (w : Nat) where
  pick : BitVec w → Option (Fin w)
  pick_mem : ∀ x i, pick x = some i → mem x i = true
  pick_none : ∀ x, pick x = none → x = 0#w

/-- Number of members. -/
def count (x : BitVec w) : Nat := ((List.finRange w).filter (mem x)).length

theorem count_erase (x : BitVec w) (i : Fin w) (h : mem x i = true) :
    count (erase x i) + 1 = count x := by
  unfold count
  have hn : ((List.finRange w).filter (mem x)).Nodup := (List.nodup_finRange w).filter _
  have hm : i ∈ (List.finRange w).filter (mem x) := by simp [h]
  have he : (List.finRange w).filter (mem (erase x i)) =
      ((List.finRange w).filter (mem x)).erase i := by
    rw [hn.erase_eq_filter, List.filter_filter]
    apply List.filter_congr
    intro j _
    rw [mem_erase, Bool.and_comm]
    congr 1
    by_cases hij : i = j
    · subst hij; simp
    · have : j ≠ i := fun e => hij e.symm
      simp [hij, this]
  rw [he, List.length_erase_of_mem hm]
  have := List.length_pos_of_mem hm
  omega

theorem count_le (x : BitVec w) : count x ≤ w := by
  unfold count
  calc
    _ ≤ (List.finRange w).length := List.length_filter_le _ _
    _ = w := List.length_finRange

theorem count_mono {x y : BitVec w} (h : ∀ i, mem x i = true → mem y i = true) : count x ≤ count y :=
  (List.monotone_filter_right _ h).length_le

/-- A set that is listed has no more members than the list. -/
theorem count_le_length {x : BitVec w} {l : List (Fin w)} (h : ∀ i, mem x i = true → i ∈ l) :
    count x ≤ l.length := by
  have hn : ((List.finRange w).filter (mem x)).Nodup := (List.nodup_finRange w).filter _
  refine (List.subperm_of_subset hn fun i hi => ?_).length_le
  exact h i (List.mem_filter.mp hi).2

theorem count_or_le (x y : BitVec w) : count (x ||| y) ≤ count x + count y := by
  simp only [count, ← List.countP_eq_length_filter]
  induction List.finRange w with
  | nil => simp
  | cons i l ih =>
    simp only [List.countP_cons, mem_or]
    cases mem x i <;> cases mem y i <;> simp <;> omega

theorem count_eq_zero (x : BitVec w) : count x = 0 ↔ x = 0#w := by
  rw [eq_zero_iff]
  simp [count, List.filter_eq_nil_iff]

/-- A word has one member exactly if some position is its only one. -/
theorem count_eq_one (x : BitVec w) : count x = 1 ↔ ∃ i, ∀ j, mem x j = true ↔ j = i := by
  have hmem : ∀ j, mem x j = true ↔ j ∈ (List.finRange w).filter (mem x) := by simp
  unfold count
  rw [List.length_eq_one_iff]
  constructor
  · rintro ⟨i, hi⟩
    exact ⟨i, fun j => by rw [hmem, hi, List.mem_singleton]⟩
  · rintro ⟨i, hi⟩
    refine ⟨i, List.perm_singleton.mp ?_⟩
    rw [List.perm_ext_iff_of_nodup ((List.nodup_finRange w).filter _) (List.nodup_singleton i)]
    intro j
    rw [← hmem, hi, List.mem_singleton]

/-- The members of `x` in scanning order: `fuel` rounds of the loop
"while the word is not zero, pick a member and clear it". -/
def drainFuel (s : Scan w) : Nat → BitVec w → List (Fin w)
  | 0, _ => []
  | fuel + 1, x =>
    match s.pick x with
    | none => []
    | some i => i :: drainFuel s fuel (erase x i)

def drain (s : Scan w) (x : BitVec w) : List (Fin w) := drainFuel s w x

theorem mem_drainFuel (s : Scan w) (fuel : Nat) (x : BitVec w) (h : count x ≤ fuel)
    (i : Fin w) : i ∈ drainFuel s fuel x ↔ mem x i = true := by
  induction fuel generalizing x with
  | zero =>
    have hx : x = 0#w := (count_eq_zero x).mp (by omega)
    simp [drainFuel, hx]
  | succ fuel ih =>
    cases hp : s.pick x with
    | none =>
      have hi : mem x i = false := by rw [s.pick_none x hp, mem_zero]
      simp [drainFuel, hp, hi]
    | some j =>
      have hj := s.pick_mem x j hp
      have hc := count_erase x j hj
      have hr := ih (erase x j) (by omega)
      simp only [drainFuel, hp, List.mem_cons, hr, mem_erase, Bool.and_eq_true,
        Bool.not_eq_true', decide_eq_false_iff_not]
      constructor
      · rintro (rfl | h)
        · exact hj
        · exact h.1
      · intro hi
        by_cases e : i = j
        · exact Or.inl e
        · exact Or.inr ⟨hi, fun e' => e e'.symm⟩

theorem drainFuel_nodup (s : Scan w) (fuel : Nat) (x : BitVec w) (h : count x ≤ fuel) :
    (drainFuel s fuel x).Nodup := by
  induction fuel generalizing x with
  | zero => simp [drainFuel]
  | succ fuel ih =>
    cases hp : s.pick x with
    | none => simp [drainFuel, hp]
    | some j =>
      have hj := s.pick_mem x j hp
      have hc := count_erase x j hj
      simp only [drainFuel, hp, List.nodup_cons]
      refine ⟨?_, ih _ (by omega)⟩
      rw [mem_drainFuel s fuel _ (by omega)]
      simp

/-- **The scanning loop visits exactly the members.** -/
@[simp] theorem mem_drain (s : Scan w) (x : BitVec w) (i : Fin w) :
    i ∈ drain s x ↔ mem x i = true :=
  mem_drainFuel s w x (count_le x) i

/-- **The scanning loop visits no member twice.** -/
theorem drain_nodup (s : Scan w) (x : BitVec w) : (drain s x).Nodup :=
  drainFuel_nodup s w x (count_le x)

theorem length_drain (s : Scan w) (x : BitVec w) : (drain s x).length = count x := by
  unfold count
  apply List.Perm.length_eq
  rw [List.perm_ext_iff_of_nodup (drain_nodup s x) ((List.nodup_finRange w).filter _)]
  intro i
  simp

end WordSet
