import HoiChess.Lib.Grid
import HoiChess.Lib.WordSet
import Mathlib.Algebra.BigOperators.Group.List.Basic
import Mathlib.Algebra.Order.Group.Int
import Mathlib.Logic.Equiv.Basic

/-!
# Words with their members renamed, and boards upside down

`Renames φ x y` says that the word `y` has the members of `x` under new names.  All operations on
words respect it, and so does whatever a loop over the members adds up, in whichever order the
members are met (`Renames.sum_drain`).  `Upside φ` are the renamings that turn the rows of a grid
around: lines are sent to lines, so sliding and lying between are respected too.
-/

namespace WordSet

variable {w : Nat} {φ : Equiv.Perm (Fin w)} {x x' y y' : BitVec w}

def Renames (φ : Equiv.Perm (Fin w)) (x y : BitVec w) : Prop := ∀ i, mem y (φ i) = mem x i

theorem Renames.and (h : Renames φ x y) (h' : Renames φ x' y') : Renames φ (x &&& x') (y &&& y') :=
  fun i => by rw [mem_and, mem_and, h i, h' i]

theorem Renames.or (h : Renames φ x y) (h' : Renames φ x' y') : Renames φ (x ||| x') (y ||| y') :=
  fun i => by rw [mem_or, mem_or, h i, h' i]

theorem Renames.not (h : Renames φ x y) : Renames φ (~~~x) (~~~y) :=
  fun i => by rw [mem_not, mem_not, h i]

theorem Renames.insert (h : Renames φ x y) (j : Fin w) :
    Renames φ (insert x j) (WordSet.insert y (φ j)) := by
  intro i
  rw [mem_insert, mem_insert, h i]
  simp

theorem Renames.ne_zero (h : Renames φ x y) : (y != 0#w) = (x != 0#w) := by
  rw [Bool.eq_iff_iff, bne_iff_ne, bne_iff_ne, ne_zero_iff, ne_zero_iff]
  constructor
  · intro ⟨j, hj⟩
    exact ⟨φ.symm j, by rw [← h, φ.apply_symm_apply, hj]⟩
  · intro ⟨i, hi⟩
    exact ⟨φ i, by rw [h, hi]⟩

/-- Two lists without repetitions of the members and of the renamed members. -/
theorem Renames.perm (h : Renames φ x y) {l l' : List (Fin w)} (hl : l.Nodup) (hl' : l'.Nodup)
    (hx : ∀ i, i ∈ l ↔ mem x i = true) (hy : ∀ i, i ∈ l' ↔ mem y i = true) :
    (l.map φ).Perm l' := by
  rw [List.perm_ext_iff_of_nodup (hl.map φ.injective) hl']
  intro j
  rw [List.mem_map, hy]
  constructor
  · intro ⟨i, hi, hj⟩
    rw [← hj, h, ← hx]
    exact hi
  · intro hj
    refine ⟨φ.symm j, ?_, φ.apply_symm_apply j⟩
    rw [hx, ← h, φ.apply_symm_apply, hj]

theorem Renames.count (h : Renames φ x y) : count y = count x := by
  have hperm := h.perm ((List.nodup_finRange w).filter (mem x)) ((List.nodup_finRange w).filter (mem y))
    (by simp) (by simp)
  unfold WordSet.count
  rw [← hperm.length_eq, List.length_map]

/-- **The order of the loop does not matter for a sum.** -/
theorem Renames.sum_drain (h : Renames φ x y) (s s' : Scan w) {f g : Fin w → Int}
    (hfg : ∀ i, mem x i = true → g (φ i) = f i) :
    ((drain s' y).map g).sum = ((drain s x).map f).sum := by
  have hperm := h.perm (drain_nodup s x) (drain_nodup s' y) (mem_drain s x) (mem_drain s' y)
  calc
    _ = (((drain s x).map φ).map g).sum := (hperm.map g).sum_eq.symm
    _ = ((drain s x).map f).sum := by
      rw [List.map_map]
      refine congrArg List.sum (List.map_congr_left fun i hi => hfg i ?_)
      rwa [mem_drain] at hi

/-- A loop over all indices. -/
theorem sum_finRange (φ : Equiv.Perm (Fin w)) {f g : Fin w → Int} (hfg : ∀ i, g (φ i) = f i) :
    ((List.finRange w).map g).sum = ((List.finRange w).map f).sum := by
  have hperm : ((List.finRange w).map φ).Perm (List.finRange w) := by
    rw [List.perm_ext_iff_of_nodup ((List.nodup_finRange w).map φ.injective) (List.nodup_finRange w)]
    intro j
    exact iff_of_true (List.mem_map.mpr ⟨φ.symm j, List.mem_finRange _, φ.apply_symm_apply j⟩)
      (List.mem_finRange j)
  rw [← (hperm.map g).sum_eq, List.map_map]
  exact congrArg List.sum (List.map_congr_left fun i _ => hfg i)

end WordSet

namespace Grid

variable {S : Type} [Grid S]

/-- The first row becomes the last one. -/
structure Upside (φ : Equiv.Perm S) : Prop where
  x : ∀ s, x (φ s) = x s
  y : ∀ s, y (φ s) = height S - 1 - y s

/-- The direction as it looks then. -/
def upsideDir (d : Dir) : Dir := (d.1, -d.2)

theorem upsideDir_upsideDir (d : Dir) : upsideDir (upsideDir d) = d := by
  simp [upsideDir]

theorem upsideDir_mem_rookDirs : ∀ d ∈ rookDirs, upsideDir d ∈ rookDirs := by decide

theorem upsideDir_mem_bishopDirs : ∀ d ∈ bishopDirs, upsideDir d ∈ bishopDirs := by decide

theorem upsideDir_mem_kingDirs : ∀ d ∈ kingDirs, upsideDir d ∈ kingDirs := by decide

variable {φ : Equiv.Perm S} {s t u : S}

theorem Upside.along (h : Upside φ) {d : Dir} {k : ℕ} :
    Along (φ s) (upsideDir d) k (φ t) ↔ Along s d k t := by
  unfold Along upsideDir
  rw [h.x, h.x, h.y, h.y]
  refine and_congr_right fun _ => ?_
  simp only [mul_neg]
  constructor <;> intro e <;> linarith

theorem Upside.along' (h : Upside φ) {d : Dir} {k : ℕ} :
    Along (φ s) d k (φ t) ↔ Along s (upsideDir d) k t := by
  have hd := h.along (s := s) (t := t) (d := upsideDir d) (k := k)
  rwa [upsideDir_upsideDir] at hd

theorem Upside.reaches (h : Upside φ) {occ occ' : S → Bool} (hocc : ∀ s, occ' (φ s) = occ s)
    {d : Dir} {k : ℕ} : Reaches occ' (φ s) (upsideDir d) k (φ t) ↔ Reaches occ s d k t := by
  unfold Reaches
  rw [h.along]
  refine and_congr_right fun _ => and_congr_right fun _ => ?_
  constructor
  · intro hfree j v h0 hj hv
    rw [← hocc]
    exact hfree j (φ v) h0 hj (h.along.mpr hv)
  · intro hfree j v h0 hj hv
    rw [← φ.apply_symm_apply v] at hv ⊢
    rw [hocc]
    exact hfree j _ h0 hj (h.along.mp hv)

/-- **Sliding in a set of directions that is symmetric.** -/
theorem Upside.slides (h : Upside φ) {occ occ' : S → Bool} (hocc : ∀ s, occ' (φ s) = occ s)
    {dirs : List Dir} (hdirs : ∀ d ∈ dirs, upsideDir d ∈ dirs) :
    Slides dirs occ' (φ s) (φ t) ↔ Slides dirs occ s t := by
  constructor
  · intro ⟨d, hd, k, hk⟩
    refine ⟨upsideDir d, hdirs d hd, k, (h.reaches hocc).mp ?_⟩
    rwa [upsideDir_upsideDir]
  · intro ⟨d, hd, k, hk⟩
    exact ⟨upsideDir d, hdirs d hd, k, (h.reaches hocc).mpr hk⟩

theorem Upside.between (h : Upside φ) : Between (φ s) (φ t) (φ u) ↔ Between s t u := by
  constructor
  · intro ⟨d, hd, i, j, h0, hij, hu, ht⟩
    exact ⟨upsideDir d, upsideDir_mem_kingDirs d hd, i, j, h0, hij, h.along'.mp hu, h.along'.mp ht⟩
  · intro ⟨d, hd, i, j, h0, hij, hu, ht⟩
    exact ⟨upsideDir d, upsideDir_mem_kingDirs d hd, i, j, h0, hij, h.along.mpr hu, h.along.mpr ht⟩

end Grid
