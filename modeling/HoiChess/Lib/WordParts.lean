import HoiChess.Lib.WordSet

/-!
# Scanning a word part by part

The lowest and the highest member of a word and the number of its members, found by looking at
one part after the other: the lowest member of the word is that of the lowest part that is not
zero (`lowest_of_part`), the highest that of the highest one (`highest_of_part`), and the parts
share the members out among them (`count_eq_countIn`, `countIn_add`).
-/

namespace WordSet

variable {w : Nat} {x : BitVec w}

/-! ## The first of a list -/

section Sorted

variable {α : Type} {R : α → α → Prop} {p : α → Bool} {b : α}

/-- The first element with a property is the least one, if the list is sorted. -/
theorem find?_sorted (hasymm : ∀ a b, R a b → ¬ R b a) {l : List α} (hl : l.Pairwise R) :
    l.find? p = some b ↔ b ∈ l ∧ p b = true ∧ ∀ a ∈ l, R a b → p a = false := by
  induction l with
  | nil => simp
  | cons c l ih =>
    obtain ⟨hc, hl⟩ := List.pairwise_cons.mp hl
    cases hp : p c with
    | true =>
      rw [List.find?_cons_of_pos hp, Option.some.injEq]
      constructor
      · rintro rfl
        refine ⟨List.mem_cons_self, hp, fun a ha har => ?_⟩
        rcases List.mem_cons.mp ha with rfl | ha
        · exact (hasymm _ _ har har).elim
        · exact (hasymm _ _ har (hc a ha)).elim
      · rintro ⟨hb, _, hleast⟩
        rcases List.mem_cons.mp hb with rfl | hb
        · rfl
        · have := hleast c List.mem_cons_self (hc b hb)
          rw [hp] at this
          cases this
    | false =>
      rw [List.find?_cons_of_neg (by simp [hp]), ih hl]
      constructor
      · rintro ⟨hb, hpb, hleast⟩
        refine ⟨List.mem_cons_of_mem c hb, hpb, fun a ha har => ?_⟩
        rcases List.mem_cons.mp ha with rfl | ha
        · exact hp
        · exact hleast a ha har
      · rintro ⟨hb, hpb, hleast⟩
        refine ⟨(List.mem_cons.mp hb).resolve_left ?_, hpb,
          fun a ha har => hleast a (List.mem_cons_of_mem c ha) har⟩
        rintro rfl
        rw [hp] at hpb
        cases hpb

end Sorted

/-! ## The lowest and the highest member -/

def lowest (x : BitVec w) : Option (Fin w) := (List.finRange w).find? (mem x)

def highest (x : BitVec w) : Option (Fin w) := (List.finRange w).reverse.find? (mem x)

theorem lowest_eq_some {i : Fin w} :
    lowest x = some i ↔ mem x i = true ∧ ∀ j, j < i → mem x j = false := by
  rw [lowest, find?_sorted (fun _ _ => lt_asymm) (List.pairwise_lt_finRange w)]
  simp

theorem highest_eq_some {i : Fin w} :
    highest x = some i ↔ mem x i = true ∧ ∀ j, i < j → mem x j = false := by
  rw [highest, find?_sorted (R := fun a b => b < a) (fun _ _ => lt_asymm)
    (List.pairwise_reverse.mpr (List.pairwise_lt_finRange w))]
  simp

@[simp] theorem lowest_eq_none : lowest x = none ↔ x = 0#w := by
  rw [eq_zero_iff]
  simp [lowest]

@[simp] theorem highest_eq_none : highest x = none ↔ x = 0#w := by
  rw [eq_zero_iff]
  simp [highest]

/-! ## The part of length `l` from bit `s` on -/

section Part

variable {s l : Nat}

theorem mem_part (hs : s + l ≤ w) (j : Fin l) :
    mem (x.extractLsb' s l) j = mem x ⟨s + j.val, by omega⟩ := by
  rw [mem_eq_getLsbD, mem_eq_getLsbD, BitVec.getLsbD_extractLsb']
  simp

/-- Where the part is zero, the word has no members. -/
theorem mem_of_part_eq_zero (hs : s + l ≤ w) (h : x.extractLsb' s l = 0#l) {i : Fin w}
    (h1 : s ≤ i.val) (h2 : i.val < s + l) : mem x i = false := by
  have hi := (eq_zero_iff _).mp h ⟨i.val - s, by omega⟩
  rw [mem_part hs] at hi
  have he : (⟨s + (i.val - s), by omega⟩ : Fin w) = i := Fin.ext (Nat.add_sub_cancel' h1)
  rwa [he] at hi

theorem lowest_of_part (hs : s + l ≤ w) (hlow : ∀ i : Fin w, i.val < s → mem x i = false)
    {j : Fin l} (h : lowest (x.extractLsb' s l) = some j) :
    lowest x = some ⟨s + j.val, by omega⟩ := by
  obtain ⟨hj, hleast⟩ := lowest_eq_some.mp h
  rw [mem_part hs] at hj
  refine lowest_eq_some.mpr ⟨hj, fun i hi => ?_⟩
  have hi : i.val < s + j.val := hi
  rcases Nat.lt_or_ge i.val s with hlt | hge
  · exact hlow i hlt
  · have hm := hleast ⟨i.val - s, by omega⟩ (show i.val - s < j.val by omega)
    rw [mem_part hs] at hm
    have he : (⟨s + (i.val - s), by omega⟩ : Fin w) = i := Fin.ext (Nat.add_sub_cancel' hge)
    rwa [he] at hm

theorem highest_of_part (hs : s + l ≤ w) (hhigh : ∀ i : Fin w, s + l ≤ i.val → mem x i = false)
    {j : Fin l} (h : highest (x.extractLsb' s l) = some j) :
    highest x = some ⟨s + j.val, by omega⟩ := by
  obtain ⟨hj, hmost⟩ := highest_eq_some.mp h
  rw [mem_part hs] at hj
  refine highest_eq_some.mpr ⟨hj, fun i hi => ?_⟩
  have hi : s + j.val < i.val := hi
  rcases Nat.lt_or_ge i.val (s + l) with hlt | hge
  · have hm := hmost ⟨i.val - s, by omega⟩ (show j.val < i.val - s by omega)
    rw [mem_part hs] at hm
    have he : (⟨s + (i.val - s), by omega⟩ : Fin w) = i := Fin.ext (by simp only; omega)
    rwa [he] at hm
  · exact hhigh i hge

/-- How many members there are from `s` to `s + l`. -/
def countIn (x : BitVec w) (s l : Nat) : Nat := (List.range' s l).countP x.getLsbD

theorem countIn_add (s l l' : Nat) : countIn x s (l + l') = countIn x s l + countIn x (s + l) l' := by
  rw [countIn, ← List.range'_append_1, List.countP_append]
  rfl

theorem count_eq_countIn (x : BitVec w) : count x = countIn x 0 w := by
  have hmap : List.range' 0 w = (List.finRange w).map Fin.val := by
    rw [List.map_coe_finRange_eq_range, List.range_eq_range']
  rw [countIn, hmap, List.countP_map, count, ← List.countP_eq_length_filter]
  refine List.countP_congr fun i _ => ?_
  rw [mem_eq_getLsbD]
  rfl

theorem count_part (s l : Nat) : count (x.extractLsb' s l) = countIn x s l := by
  have hmap : List.range' s l = (List.range l).map (s + ·) := List.range'_eq_map_range
  rw [count_eq_countIn, countIn, countIn, hmap, List.countP_map,
    ← List.range_eq_range']
  refine List.countP_congr fun i hi => ?_
  rw [BitVec.getLsbD_extractLsb', Function.comp_apply]
  simp [List.mem_range.mp hi]

end Part

/-- Rounds beyond the number of members change nothing. -/
theorem drainFuel_eq (scan : Scan w) {fuel fuel' : Nat} (h : count x ≤ fuel) (h' : count x ≤ fuel') :
    drainFuel scan fuel x = drainFuel scan fuel' x := by
  induction fuel generalizing fuel' x with
  | zero =>
    have hz : x = 0#w := (count_eq_zero x).mp (by omega)
    have hnone : ∀ i, i ∉ drainFuel scan fuel' x := by
      intro i hi
      rw [mem_drainFuel scan fuel' x h', hz, mem_zero] at hi
      cases hi
    exact (List.eq_nil_iff_forall_not_mem.mpr hnone).symm
  | succ fuel ih =>
    cases hp : scan.pick x with
    | none =>
      cases fuel' with
      | zero => simp [drainFuel, hp]
      | succ fuel' => simp [drainFuel, hp]
    | some i =>
      have hc := count_erase x i (scan.pick_mem x i hp)
      cases fuel' with
      | zero => omega
      | succ fuel' =>
        simp only [drainFuel, hp]
        exact congrArg (i :: ·) (ih (by omega) (by omega))

end WordSet
