import HoiChess.Lib.WordSet
import Mathlib.Data.List.Perm.Basic

/-!
# The order of a scan

Any order of the positions is the one of some scan (`drain_ofOrder`).  What a loop counts may
depend on it: `followers R [] l` is the number of elements of `l` with an earlier element they are
related to.  If nothing is related to two others, this is the same for every order
(`followers_perm`); if something is related to two that are not related to each other, it is not
(`followers_differ`).
-/

namespace WordSet

section Order

variable {w : Nat} {order : List (Fin w)}

/-- The scan that picks the first member in a given order. -/
def Scan.ofOrder (order : List (Fin w)) (hall : ∀ i, i ∈ order) : Scan w where
  pick x := order.find? (mem x)
  pick_mem _ _ h := List.find?_some h
  pick_none x h := by
    rw [eq_zero_iff]
    intro i
    have hi := List.find?_eq_none.mp h i (hall i)
    simpa using hi

theorem filter_erase (hn : order.Nodup) {x : BitVec w} {i : Fin w}
    (hi : order.find? (mem x) = some i) :
    order.filter (mem x) = i :: order.filter (mem (erase x i)) := by
  induction order with
  | nil => cases hi
  | cons j order ih =>
    obtain ⟨hj, hn⟩ := List.nodup_cons.mp hn
    cases hx : mem x j with
    | true =>
      rw [List.find?_cons_of_pos hx] at hi
      have hij : i = j := (Option.some.inj hi).symm
      subst hij
      have hrest : order.filter (mem (erase x i)) = order.filter (mem x) := by
        refine List.filter_congr fun l hl => ?_
        have hne : i ≠ l := fun e => hj (e ▸ hl)
        simp [hne]
      simp [hx, hrest]
    | false =>
      have hne : ¬ mem x j = true := by simp [hx]
      rw [List.find?_cons_of_neg hne] at hi
      simp [hx, ih hn hi]

theorem drainFuel_ofOrder (hall : ∀ i, i ∈ order) (hn : order.Nodup) (fuel : Nat) (x : BitVec w)
    (hf : count x ≤ fuel) : drainFuel (.ofOrder order hall) fuel x = order.filter (mem x) := by
  induction fuel generalizing x with
  | zero =>
    have hx : x = 0#w := (count_eq_zero x).mp (by omega)
    simp [drainFuel, hx]
  | succ fuel ih =>
    have hpick : (Scan.ofOrder order hall).pick x = order.find? (mem x) := rfl
    cases hp : order.find? (mem x) with
    | none =>
      have hnone := List.find?_eq_none.mp hp
      rw [drainFuel, hpick, hp, List.filter_eq_nil_iff.mpr hnone]
    | some i =>
      have hcount := count_erase x i (List.find?_some hp)
      rw [drainFuel, hpick, hp, filter_erase hn hp, ← ih (erase x i) (by omega)]

/-- **Any order can be that of a scan.** -/
theorem drain_ofOrder (hall : ∀ i, i ∈ order) (hn : order.Nodup) (x : BitVec w) :
    drain (.ofOrder order hall) x = order.filter (mem x) :=
  drainFuel_ofOrder hall hn w x (count_le x)

theorem drain_perm (s s' : Scan w) (x : BitVec w) : (drain s x).Perm (drain s' x) := by
  rw [List.perm_ext_iff_of_nodup (drain_nodup s x) (drain_nodup s' x)]
  simp

end Order

/-! ## Counting the elements that come after a related one -/

section Followers

variable {α : Type} (R : α → α → Bool)

/-- How many elements of `l` are related to an earlier one or to one of `pre`. -/
def followers : List α → List α → Nat
  | _, [] => 0
  | pre, x :: l => (if pre.any (R x) then 1 else 0) + followers (x :: pre) l

variable {R}

theorem followers_congr {pre pre' : List α} (h : ∀ x, x ∈ pre ↔ x ∈ pre') (l : List α) :
    followers R pre l = followers R pre' l := by
  induction l generalizing pre pre' with
  | nil => rfl
  | cons x l ih =>
    have hany : pre.any (R x) = pre'.any (R x) := by
      rw [Bool.eq_iff_iff, List.any_eq_true, List.any_eq_true]
      simp only [h]
    have hrest : followers R (x :: pre) l = followers R (x :: pre') l := ih (by simp [h])
    simp only [followers, hany, hrest]

/-- **Pairs do not mind the order.** -/
theorem followers_perm (hsymm : ∀ x y, R x y = true → R y x = true)
    (hone : ∀ x y z, R x y = true → R x z = true → y = z) {l l' : List α} (h : l.Perm l')
    {pre : List α} (hn : (pre ++ l).Nodup) : followers R pre l = followers R pre l' := by
  induction h generalizing pre with
  | nil => rfl
  | cons x _ ih =>
    have hn' : ((x :: pre) ++ _).Nodup := (List.perm_middle.nodup_iff.mp hn)
    simp only [followers, ih hn']
  | swap x y l =>
    have hx : x ∉ pre := fun hx => (List.nodup_append.mp hn).2.2 x hx x (by simp) rfl
    have hy : y ∉ pre := fun hy => (List.nodup_append.mp hn).2.2 y hy y (by simp) rfl
    have hrest : followers R (x :: y :: pre) l = followers R (y :: x :: pre) l :=
      followers_congr (fun z => by simp [or_left_comm]) l
    simp only [followers, hrest, List.any_cons]
    by_cases hxy : R x y = true
    · have hyx := hsymm x y hxy
      have hpx : pre.any (R x) = false := by
        rw [List.any_eq_false]
        intro z hz hxz
        exact hy (hone x y z hxy hxz ▸ hz)
      have hpy : pre.any (R y) = false := by
        rw [List.any_eq_false]
        intro z hz hyz
        exact hx (hone y x z hyx hyz ▸ hz)
      simp [hpx, hpy, hyx, hxy]
    · have hyx : ¬ R y x = true := fun hyx => hxy (hsymm y x hyx)
      simp only [Bool.not_eq_true] at hxy hyx
      simp only [hxy, hyx, Bool.false_or]
      omega
  | trans h1 _ ih1 ih2 =>
    have hn' : (pre ++ _).Nodup := ((h1.append_left pre).nodup_iff).mp hn
    exact (ih1 hn).trans (ih2 hn')

/-- **A chain of three does mind**: it counts once if the middle comes last, and twice if it
comes first. -/
theorem followers_differ (hsymm : ∀ x y, R x y = true → R y x = true) {a b c : α}
    (hba : R b a = true) (hbc : R b c = true) (hac : R a c = false) (l : List α) :
    followers R [] (b :: a :: c :: l) = followers R [] (a :: c :: b :: l) + 1 := by
  have hca : R c a = false := by
    by_contra hca
    have := hsymm c a (by simpa using hca)
    rw [hac] at this
    cases this
  have hrest : followers R [c, a, b] l = followers R [b, c, a] l :=
    followers_congr (fun z => by simp only [List.mem_cons, List.not_mem_nil]; tauto) l
  simp only [followers, List.any_cons, List.any_nil, hrest, hsymm b a hba, hsymm b c hbc, hca, hba]
  simp
  omega

end Followers

end WordSet
