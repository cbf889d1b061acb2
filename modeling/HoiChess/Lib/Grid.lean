import Mathlib.Tactic.Linarith
import Mathlib.Tactic.Ring
import Mathlib.Data.Int.Order.Basic
import Mathlib.Algebra.Order.Ring.Int

/-!
# Rays on a rectangular board

A `Grid` gives the cells of a finite rectangular board integer coordinates.
`Along s d k t` says that `t` lies `k` steps of `d` away from `s`; `walk`
follows a direction up to and including the first occupied cell, and
`mem_walk` describes the cells it visits without mentioning the recursion.
`Slides` collects the walks over a set of directions and `Between` the cells
strictly inside a line.  For the eight unit directions a cell determines the
direction and the distance (`Along.unit_unique`), so that blocking a line is
the same as occupying one of the cells between its ends (`slides_iff`).
-/

/-- Cells with coordinates `0 ≤ x < width` and `0 ≤ y < height`. -/
class Grid (S : Type) where
  width : ℤ
  height : ℤ
  x : S → ℤ
  y : S → ℤ
  cell : ℤ → ℤ → Option S
  cell_eq_some : ∀ i j s, cell i j = some s ↔ x s = i ∧ y s = j
  cell_isSome : ∀ i j, (cell i j).isSome ↔ (0 ≤ i ∧ i < width) ∧ (0 ≤ j ∧ j < height)

namespace Grid

variable {S : Type} [Grid S]

theorem ext {s t : S} (hx : x s = x t) (hy : y s = y t) : s = t := by
  have hs : cell (x s) (y s) = some s := (cell_eq_some _ _ s).mpr ⟨rfl, rfl⟩
  have ht : cell (x s) (y s) = some t := (cell_eq_some _ _ t).mpr ⟨hx.symm, hy.symm⟩
  rw [hs] at ht
  exact Option.some.inj ht

theorem bounds (s : S) :
    (0 ≤ x s ∧ x s < width S) ∧ (0 ≤ y s ∧ y s < height S) := by
  apply (cell_isSome (x s) (y s)).mp
  rw [(cell_eq_some _ _ s).mpr ⟨rfl, rfl⟩]
  rfl

theorem exists_cell {i j : ℤ} (hi : 0 ≤ i ∧ i < width S) (hj : 0 ≤ j ∧ j < height S) :
    ∃ s : S, x s = i ∧ y s = j := by
  obtain ⟨s, hs⟩ := Option.isSome_iff_exists.mp ((cell_isSome (S := S) i j).mpr ⟨hi, hj⟩)
  exact ⟨s, (cell_eq_some _ _ s).mp hs⟩

/-! ## Steps and lines -/

abbrev Dir := ℤ × ℤ

/-- The neighbour of `s` in direction `d`, if it is on the board. -/
def step (s : S) (d : Dir) : Option S := cell (x s + d.1) (y s + d.2)

/-- `t` is `k` steps of `d` away from `s`. -/
def Along (s : S) (d : Dir) (k : ℕ) (t : S) : Prop :=
  x t = x s + k * d.1 ∧ y t = y s + k * d.2

theorem step_eq_some {s t : S} {d : Dir} : step s d = some t ↔ Along s d 1 t := by
  simp [step, cell_eq_some, Along]

theorem along_zero {s t : S} {d : Dir} : Along s d 0 t ↔ t = s := by
  constructor
  · rintro ⟨hx, hy⟩
    exact ext (by simpa using hx) (by simpa using hy)
  · rintro rfl
    exact ⟨by simp, by simp⟩

theorem Along.unique {s t t' : S} {d : Dir} {k : ℕ} (h : Along s d k t) (h' : Along s d k t') :
    t = t' :=
  ext (h.1.trans h'.1.symm) (h.2.trans h'.2.symm)

theorem Along.symm {s t : S} {d : Dir} {k : ℕ} (h : Along s d k t) : Along t (-d) k s := by
  obtain ⟨hx, hy⟩ := h
  refine ⟨?_, ?_⟩
  · rw [hx]; simp
  · rw [hy]; simp

theorem Along.trans {s u t : S} {d : Dir} {i j : ℕ} (h : Along s d i u) (h' : Along u d j t) :
    Along s d (i + j) t := by
  obtain ⟨hx, hy⟩ := h
  obtain ⟨hx', hy'⟩ := h'
  refine ⟨?_, ?_⟩
  · rw [hx', hx]; push_cast; ring
  · rw [hy', hy]; push_cast; ring

theorem Along.sub {s u t : S} {d : Dir} {i j : ℕ} (h : Along s d i u)
    (h' : Along s d (i + j) t) : Along u d j t := by
  obtain ⟨hx, hy⟩ := h
  obtain ⟨hx', hy'⟩ := h'
  refine ⟨?_, ?_⟩
  · rw [hx', hx]; push_cast; ring
  · rw [hy', hy]; push_cast; ring

private theorem coord_convex {a d w : ℤ} {j k : ℕ} (hj : j ≤ k) (h0 : 0 ≤ a ∧ a < w)
    (hk : 0 ≤ a + k * d ∧ a + k * d < w) : 0 ≤ a + j * d ∧ a + j * d < w := by
  have hjk : (j : ℤ) ≤ k := by exact_mod_cast hj
  have hj0 : (0 : ℤ) ≤ j := Int.natCast_nonneg j
  rcases le_total 0 d with hd | hd
  · have h1 : 0 ≤ (j : ℤ) * d := mul_nonneg hj0 hd
    have h2 : (j : ℤ) * d ≤ k * d := mul_le_mul_of_nonneg_right hjk hd
    constructor <;> linarith
  · have h1 : (j : ℤ) * d ≤ 0 := mul_nonpos_of_nonneg_of_nonpos hj0 hd
    have h2 : (k : ℤ) * d ≤ j * d := mul_le_mul_of_nonpos_right hjk hd
    constructor <;> linarith

/-- A rectangular board is convex: the inner cells of a line exist. -/
theorem Along.exists_inner {s t : S} {d : Dir} {j k : ℕ} (h : Along s d k t) (hj : j ≤ k) :
    ∃ u, Along s d j u := by
  obtain ⟨hsx, hsy⟩ := bounds s
  obtain ⟨htx, hty⟩ := bounds t
  rw [h.1] at htx
  rw [h.2] at hty
  obtain ⟨u, hu⟩ := exists_cell (S := S) (coord_convex hj hsx htx) (coord_convex hj hsy hty)
  exact ⟨u, hu⟩

/-! ## Walking along a ray -/

/-- The cells visited from `s` in direction `d`, at most `fuel` of them, up
to and including the first occupied one. -/
def walk (occ : S → Bool) (d : Dir) : ℕ → S → List S
  | 0, _ => []
  | fuel + 1, s =>
    match step s d with
    | none => []
    | some t => if occ t then [t] else t :: walk occ d fuel t

/-- `t` is reached from `s` by `k` steps of `d` over empty cells. -/
def Reaches (occ : S → Bool) (s : S) (d : Dir) (k : ℕ) (t : S) : Prop :=
  0 < k ∧ Along s d k t ∧ ∀ j u, 0 < j → j < k → Along s d j u → occ u = false

theorem reaches_one {occ : S → Bool} {s t : S} {d : Dir} :
    Reaches occ s d 1 t ↔ Along s d 1 t := by
  constructor
  · exact fun h => h.2.1
  · intro h
    exact ⟨Nat.one_pos, h, fun j u h0 h1 _ => absurd h1 (by omega)⟩

theorem reaches_succ {occ : S → Bool} {s u t : S} {d : Dir} {k : ℕ} (hu : Along s d 1 u)
    (hk : 0 < k) :
    Reaches occ s d (k + 1) t ↔ occ u = false ∧ Reaches occ u d k t := by
  constructor
  · rintro ⟨_, ht, hclear⟩
    refine ⟨hclear 1 u Nat.one_pos (by omega) hu, hk, ?_, ?_⟩
    · exact hu.sub (Nat.add_comm k 1 ▸ ht)
    · intro j v h0 hj hv
      exact hclear (1 + j) v (by omega) (by omega) (hu.trans hv)
  · rintro ⟨hocc, _, ht, hclear⟩
    refine ⟨by omega, Nat.add_comm 1 k ▸ hu.trans ht, ?_⟩
    intro j v h0 hj hv
    rcases Nat.lt_or_ge 1 j with h1 | h1
    · obtain ⟨i, rfl⟩ := Nat.exists_eq_add_of_lt h1
      have hv' : Along s d (1 + (i + 1)) v := by
        rw [show 1 + (i + 1) = 1 + i + 1 by omega]; exact hv
      exact hclear (i + 1) v (by omega) (by omega) (hu.sub hv')
    · have hj1 : j = 1 := by omega
      subst hj1
      rw [hv.unique hu]
      exact hocc

/-- **Ray walking.** -/
theorem mem_walk {occ : S → Bool} {d : Dir} {fuel : ℕ} {s t : S} :
    t ∈ walk occ d fuel s ↔ ∃ k, k ≤ fuel ∧ Reaches occ s d k t := by
  induction fuel generalizing s with
  | zero =>
    simp only [walk, List.not_mem_nil, false_iff]
    rintro ⟨k, hk, h0, _⟩
    omega
  | succ fuel ih =>
    cases hu : step s d with
    | none =>
      simp only [walk, hu, List.not_mem_nil, false_iff]
      rintro ⟨k, hk, h0, h, _⟩
      obtain ⟨u, h1⟩ := h.exists_inner (j := 1) h0
      rw [step_eq_some.mpr h1] at hu
      cases hu
    | some u =>
      have h1 : Along s d 1 u := step_eq_some.mp hu
      have hmem : t ∈ walk occ d (fuel + 1) s ↔
          t = u ∨ (occ u = false ∧ t ∈ walk occ d fuel u) := by
        cases ho : occ u <;> simp [walk, hu, ho]
      rw [hmem, ih]
      constructor
      · rintro (rfl | ⟨ho, k, hk, hr⟩)
        · exact ⟨1, by omega, reaches_one.mpr h1⟩
        · exact ⟨k + 1, by omega, (reaches_succ h1 hr.1).mpr ⟨ho, hr⟩⟩
      · rintro ⟨k, hk, hr⟩
        obtain ⟨k, rfl⟩ := Nat.exists_eq_succ_of_ne_zero (Nat.pos_iff_ne_zero.mp hr.1)
        rcases Nat.eq_zero_or_pos k with rfl | hk0
        · exact Or.inl (hr.2.1.unique h1)
        · obtain ⟨ho, hr'⟩ := (reaches_succ h1 hk0).mp hr
          exact Or.inr ⟨ho, k, by omega, hr'⟩

/-- A walk meets at most as many cells free of `own` as the empty ray does
before its first cell in `sl`, if `sl` is among `own` and `own` is occupied. -/
theorem length_filter_walk_le {occ own sl : S → Bool} (hocc : ∀ u, own u = true → occ u = true)
    (hown : ∀ u, sl u = true → own u = true) (d : Dir) (fuel : ℕ) (s : S) :
    ((walk occ d fuel s).filter (fun u => !own u)).length ≤
      ((walk (fun _ => false) d fuel s).takeWhile (fun u => !sl u)).length := by
  induction fuel generalizing s with
  | zero => simp [walk]
  | succ fuel ih =>
    cases hu : step s d with
    | none => simp [walk, hu]
    | some t =>
      have hih := ih t
      cases ho : own t with
      | true =>
        have := hocc t ho
        simp [walk, hu, this, ho]
      | false =>
        have hs : sl t = false := by
          by_contra h
          rw [hown t (by simpa using h)] at ho
          cases ho
        cases hoc : occ t with
        | true => simp [walk, hu, hoc, ho, hs]
        | false =>
          simp only [walk, hu, hoc, Bool.false_eq_true, if_false, List.filter_cons, ho,
            Bool.not_false, if_true, List.takeWhile_cons, hs, List.length_cons]
          omega

/-! ## Sliding and blocking in the unit directions -/

def rookDirs : List Dir := [(1, 0), (-1, 0), (0, 1), (0, -1)]
def bishopDirs : List Dir := [(1, 1), (-1, 1), (1, -1), (-1, -1)]
def kingDirs : List Dir := rookDirs ++ bishopDirs

theorem mem_kingDirs {d : Dir} : d ∈ kingDirs ↔ d ∈ rookDirs ∨ d ∈ bishopDirs :=
  List.mem_append

theorem rookDirs_cases {d : Dir} (h : d ∈ rookDirs) :
    d = (1, 0) ∨ d = (-1, 0) ∨ d = (0, 1) ∨ d = (0, -1) := by
  simpa [rookDirs] using h

theorem bishopDirs_cases {d : Dir} (h : d ∈ bishopDirs) :
    d = (1, 1) ∨ d = (-1, 1) ∨ d = (1, -1) ∨ d = (-1, -1) := by
  simpa [bishopDirs] using h

theorem unit_bounds {d : Dir} (h : d ∈ kingDirs) :
    -1 ≤ d.1 ∧ d.1 ≤ 1 ∧ -1 ≤ d.2 ∧ d.2 ≤ 1 ∧ (d.1 ≠ 0 ∨ d.2 ≠ 0) := by
  revert d
  decide

theorem mem_kingDirs_of_bounds {d : Dir} (h1 : -1 ≤ d.1 ∧ d.1 ≤ 1) (h2 : -1 ≤ d.2 ∧ d.2 ≤ 1)
    (h : d.1 ≠ 0 ∨ d.2 ≠ 0) : d ∈ kingDirs := by
  obtain ⟨a, b⟩ := d
  simp only at h1 h2 h
  have ha : a = -1 ∨ a = 0 ∨ a = 1 := by omega
  have hb : b = -1 ∨ b = 0 ∨ b = 1 := by omega
  rcases ha with rfl | rfl | rfl <;> rcases hb with rfl | rfl | rfl <;>
    first | decide | (exfalso; omega)

theorem neg_mem_rookDirs {d : Dir} (h : d ∈ rookDirs) : -d ∈ rookDirs := by
  revert d; decide

theorem neg_mem_bishopDirs {d : Dir} (h : d ∈ bishopDirs) : -d ∈ bishopDirs := by
  revert d; decide

theorem neg_mem_kingDirs {d : Dir} (h : d ∈ kingDirs) : -d ∈ kingDirs := by
  revert d; decide

private theorem unit_mul_unique {a b : ℤ} {k l : ℕ} (ha : -1 ≤ a ∧ a ≤ 1) (hb : -1 ≤ b ∧ b ≤ 1)
    (hk : 0 < k) (hl : 0 < l) (h : (k : ℤ) * a = l * b) : a = b ∧ (a ≠ 0 → k = l) := by
  have ha' : a = -1 ∨ a = 0 ∨ a = 1 := by omega
  have hb' : b = -1 ∨ b = 0 ∨ b = 1 := by omega
  rcases ha' with rfl | rfl | rfl <;> rcases hb' with rfl | rfl | rfl <;> omega

/-- In the unit directions a cell determines its direction and distance. -/
theorem Along.unit_unique {s t : S} {d e : Dir} {k l : ℕ} (hd : d ∈ kingDirs)
    (he : e ∈ kingDirs) (hk : 0 < k) (hl : 0 < l) (h : Along s d k t) (h' : Along s e l t) :
    d = e ∧ k = l := by
  obtain ⟨d1, d2, d3, d4, d5⟩ := unit_bounds hd
  obtain ⟨e1, e2, e3, e4, _⟩ := unit_bounds he
  have hx : (k : ℤ) * d.1 = l * e.1 := by have := h.1; have := h'.1; omega
  have hy : (k : ℤ) * d.2 = l * e.2 := by have := h.2; have := h'.2; omega
  obtain ⟨ex, kx⟩ := unit_mul_unique ⟨d1, d2⟩ ⟨e1, e2⟩ hk hl hx
  obtain ⟨ey, ky⟩ := unit_mul_unique ⟨d3, d4⟩ ⟨e3, e4⟩ hk hl hy
  exact ⟨Prod.ext ex ey, d5.elim kx ky⟩

/-- `t` can be reached from `s` by sliding in one of the directions. -/
def Slides (dirs : List Dir) (occ : S → Bool) (s t : S) : Prop :=
  ∃ d ∈ dirs, ∃ k, Reaches occ s d k t

/-- `u` lies strictly between `s` and `t` on a line. -/
def Between (s t u : S) : Prop :=
  ∃ d ∈ kingDirs, ∃ i j, 0 < i ∧ i < j ∧ Along s d i u ∧ Along s d j t

/-- `t` lies on a line with `s` in one of the directions. -/
def Aligned (dirs : List Dir) (s t : S) : Prop := ∃ d ∈ dirs, ∃ k, 0 < k ∧ Along s d k t

theorem Along.between_iff {s t u : S} {d : Dir} {k : ℕ} (hd : d ∈ kingDirs) (hk : 0 < k)
    (h : Along s d k t) : Between s t u ↔ ∃ j, 0 < j ∧ j < k ∧ Along s d j u := by
  constructor
  · rintro ⟨e, he, i, j, h0, hij, hu, ht⟩
    obtain ⟨rfl, rfl⟩ := Along.unit_unique hd he hk (by omega) h ht
    exact ⟨i, h0, hij, hu⟩
  · rintro ⟨j, h0, hjk, hu⟩
    exact ⟨d, hd, j, k, h0, hjk, hu, h⟩

/-- **Sliding is being aligned with nothing in between.** -/
theorem slides_iff {dirs : List Dir} (hdirs : ∀ d ∈ dirs, d ∈ kingDirs) {occ : S → Bool}
    {s t : S} :
    Slides dirs occ s t ↔ Aligned dirs s t ∧ ∀ u, Between s t u → occ u = false := by
  constructor
  · rintro ⟨d, hd, k, hk, ht, hclear⟩
    refine ⟨⟨d, hd, k, hk, ht⟩, ?_⟩
    intro u hu
    obtain ⟨j, h0, hj, hju⟩ := (ht.between_iff (hdirs d hd) hk).mp hu
    exact hclear j u h0 hj hju
  · rintro ⟨⟨d, hd, k, hk, ht⟩, hclear⟩
    refine ⟨d, hd, k, hk, ht, ?_⟩
    intro j u h0 hj hu
    exact hclear u ((ht.between_iff (hdirs d hd) hk).mpr ⟨j, h0, hj, hu⟩)

theorem Between.symm {s t u : S} (h : Between s t u) : Between t s u := by
  obtain ⟨d, hd, i, j, h0, hij, hu, ht⟩ := h
  refine ⟨-d, neg_mem_kingDirs hd, j - i, j, by omega, by omega, ?_, ht.symm⟩
  have hut : Along u d (j - i) t := hu.sub (by rwa [Nat.add_sub_cancel' (by omega)])
  exact hut.symm

theorem between_comm {s t u : S} : Between s t u ↔ Between t s u := ⟨.symm, .symm⟩

theorem Aligned.symm {dirs : List Dir} (hneg : ∀ d ∈ dirs, -d ∈ dirs) {s t : S}
    (h : Aligned dirs s t) : Aligned dirs t s := by
  obtain ⟨d, hd, k, hk, ht⟩ := h
  exact ⟨-d, hneg d hd, k, hk, ht.symm⟩

theorem Along.ne {s t : S} {d : Dir} {k : ℕ} (hd : d ∈ kingDirs) (hk : 0 < k)
    (h : Along s d k t) : s ≠ t := by
  rintro rfl
  obtain ⟨_, _, _, _, h5⟩ := unit_bounds hd
  have hk' : (k : ℤ) ≠ 0 := by exact_mod_cast Nat.pos_iff_ne_zero.mp hk
  have h1 := h.1
  have h2 := h.2
  have z1 : (k : ℤ) * d.1 = 0 := by omega
  have z2 : (k : ℤ) * d.2 = 0 := by omega
  rcases h5 with h5 | h5
  · exact h5 ((mul_eq_zero.mp z1).resolve_left hk')
  · exact h5 ((mul_eq_zero.mp z2).resolve_left hk')

theorem Between.ne_left {s t u : S} (h : Between s t u) : s ≠ u := by
  obtain ⟨d, hd, i, j, h0, _, hu, _⟩ := h
  exact hu.ne hd h0

theorem Between.ne_right {s t u : S} (h : Between s t u) : t ≠ u := h.symm.ne_left

/-- Of three cells in a row on a line the middle one is between the outer ones. -/
theorem Between.inner {s t t' u : S} (h : Between s t u) (h' : Between s t' t) :
    Between u t' t := by
  obtain ⟨d, hd, i, j, h0, hij, hu, ht⟩ := h
  obtain ⟨e, he, j', l, h0', hjl, ht', hl⟩ := h'
  obtain ⟨rfl, rfl⟩ := Along.unit_unique hd he (by omega) h0' ht ht'
  obtain ⟨a, rfl⟩ := Nat.exists_eq_add_of_lt hij
  obtain ⟨c, rfl⟩ := Nat.exists_eq_add_of_lt hjl
  rw [show i + a + 1 = i + (a + 1) from rfl] at ht
  rw [show i + a + 1 + c + 1 = i + (a + 1 + c + 1) by omega] at hl
  exact ⟨d, hd, a + 1, a + 1 + c + 1, by omega, by omega, hu.sub ht, hu.sub hl⟩

/-- A cell between two others lies in the same direction. -/
theorem Between.aligned_iff {dirs : List Dir} (hdirs : ∀ d ∈ dirs, d ∈ kingDirs) {s t u : S}
    (h : Between s t u) : Aligned dirs s u ↔ Aligned dirs s t := by
  obtain ⟨d, hd, i, j, h0, hij, hu, ht⟩ := h
  constructor
  · rintro ⟨e, he, k, hk, hek⟩
    obtain ⟨rfl, rfl⟩ := Along.unit_unique hd (hdirs e he) h0 hk hu hek
    exact ⟨d, he, j, by omega, ht⟩
  · rintro ⟨e, he, k, hk, hek⟩
    obtain ⟨rfl, rfl⟩ := Along.unit_unique hd (hdirs e he) (by omega) hk ht hek
    exact ⟨d, he, i, h0, hu⟩

/-- Two lines into `s` that share an inner cell are nested. -/
theorem Between.nested {s t t' u : S} (h : Between s t u) (h' : Between s t' u) :
    t = t' ∨ Between s t t' ∨ Between s t' t := by
  obtain ⟨d, hd, i, j, h0, hij, hu, ht⟩ := h
  obtain ⟨e, he, i', j', h0', hij', hu', ht'⟩ := h'
  obtain ⟨rfl, rfl⟩ := Along.unit_unique hd he h0 h0' hu hu'
  rcases Nat.lt_trichotomy j j' with hlt | rfl | hgt
  · exact Or.inr (Or.inr ⟨d, hd, j, j', by omega, hlt, ht, ht'⟩)
  · exact Or.inl (ht.unique ht')
  · exact Or.inr (Or.inl ⟨d, hd, j', j, by omega, hgt, ht', ht⟩)

/-! ## Behind the first occupied cell -/

/-- The cells visited by a second walk that starts at the first occupied cell. -/
def behind (occ : S → Bool) (d : Dir) : ℕ → S → List S
  | 0, _ => []
  | fuel + 1, s =>
    match step s d with
    | none => []
    | some t => if occ t then walk occ d fuel t else behind occ d fuel t

theorem mem_behind {occ : S → Bool} {d : Dir} {fuel : ℕ} {s t : S} :
    t ∈ behind occ d fuel s ↔
      ∃ k l u, k + l ≤ fuel ∧ Reaches occ s d k u ∧ occ u = true ∧ Reaches occ u d l t := by
  induction fuel generalizing s with
  | zero =>
    simp only [behind, List.not_mem_nil, false_iff]
    rintro ⟨k, l, u, hkl, hk, _⟩
    have := hk.1
    omega
  | succ fuel ih =>
    rw [behind]
    cases hs : step s d with
    | none =>
      simp only [List.not_mem_nil, false_iff]
      rintro ⟨k, l, u, _, hk, _⟩
      obtain ⟨v, hv⟩ := hk.2.1.exists_inner (j := 1) hk.1
      rw [step_eq_some.mpr hv] at hs
      cases hs
    | some v =>
      have hv : Along s d 1 v := step_eq_some.mp hs
      simp only
      split
      · rename_i hocc
        rw [mem_walk]
        constructor
        · rintro ⟨l, hl, hr⟩
          exact ⟨1, l, v, by omega, reaches_one.mpr hv, hocc, hr⟩
        · rintro ⟨k, l, u, hkl, hk, _, hr⟩
          rcases Nat.lt_or_ge 1 k with h1 | h1
          · rw [hk.2.2 1 v Nat.one_pos h1 hv] at hocc
            cases hocc
          · have hk1 : k = 1 := Nat.le_antisymm h1 hk.1
            subst hk1
            rw [hv.unique hk.2.1]
            exact ⟨l, by omega, hr⟩
      · rename_i hfree
        rw [ih]
        have hfree' : occ v = false := by simpa using hfree
        constructor
        · rintro ⟨k, l, u, hkl, hk, hu, hr⟩
          exact ⟨k + 1, l, u, by omega, (reaches_succ hv hk.1).mpr ⟨hfree', hk⟩, hu, hr⟩
        · rintro ⟨k, l, u, hkl, hk, hu, hr⟩
          rcases Nat.lt_or_ge 1 k with h1 | h1
          · obtain ⟨k, rfl⟩ := Nat.exists_eq_add_of_lt h1
            rw [show 1 + k + 1 = (k + 1) + 1 by omega] at hk
            exact ⟨k + 1, l, u, by omega, ((reaches_succ hv (Nat.succ_pos k)).mp hk).2, hu, hr⟩
          · have hk1 : k = 1 := Nat.le_antisymm h1 hk.1
            subst hk1
            rw [hv.unique hk.2.1, hu] at hfree'
            cases hfree'

/-- **A second walk reaches the cells with exactly one occupied cell in between.** -/
theorem behind_iff {occ : S → Bool} {d : Dir} (hd : d ∈ kingDirs) {s t : S} :
    (∃ fuel, t ∈ behind occ d fuel s) ↔ (∃ k, 0 < k ∧ Along s d k t) ∧
      ∃ u, Between s t u ∧ occ u = true ∧ ∀ v, Between s t v → occ v = true → v = u := by
  constructor
  · rintro ⟨fuel, h⟩
    obtain ⟨k, l, u, _, ⟨hk, hu, hclear⟩, hocc, hl, ht, hclear'⟩ := mem_behind.mp h
    have hst := hu.trans ht
    refine ⟨⟨k + l, by omega, hst⟩, u, (hst.between_iff hd (by omega)).mpr ⟨k, hk, by omega, hu⟩, hocc, ?_⟩
    intro v hv hoccv
    obtain ⟨j, h0, hj, hjv⟩ := (hst.between_iff hd (by omega)).mp hv
    rcases Nat.lt_trichotomy j k with hlt | rfl | hgt
    · rw [hclear j v h0 hlt hjv] at hoccv
      cases hoccv
    · exact hjv.unique hu
    · obtain ⟨i, rfl⟩ := Nat.exists_eq_add_of_lt hgt
      rw [show k + i + 1 = k + (i + 1) from rfl] at hjv hj
      rw [hclear' (i + 1) v (Nat.succ_pos i) (by omega) (hu.sub hjv)] at hoccv
      cases hoccv
  · rintro ⟨⟨k, hk, hst⟩, u, hu, hocc, honly⟩
    obtain ⟨j, h0, hj, hju⟩ := (hst.between_iff hd hk).mp hu
    obtain ⟨i, rfl⟩ := Nat.exists_eq_add_of_lt hj
    rw [show j + i + 1 = j + (i + 1) from rfl] at hst
    have hfree : ∀ a v, 0 < a → a < j + (i + 1) → a ≠ j → Along s d a v → occ v = false := by
      intro a v ha0 ha haj hav
      by_contra hoccv
      have hvu := honly v ((hst.between_iff hd hk).mpr ⟨a, ha0, ha, hav⟩) (by simpa using hoccv)
      subst hvu
      exact haj (Along.unit_unique hd hd ha0 h0 hav hju).2
    refine ⟨j + (i + 1), mem_behind.mpr ⟨j, i + 1, u, le_rfl, ⟨h0, hju, ?_⟩, hocc,
      Nat.succ_pos i, hju.sub hst, ?_⟩⟩
    · intro a v ha0 ha hav
      exact hfree a v ha0 (by omega) (by omega) hav
    · intro a v ha0 ha hav
      exact hfree (j + a) v (by omega) (by omega) (by omega) (hju.trans hav)

/-- A walk does not visit a cell twice. -/
theorem walk_nodup {occ : S → Bool} {d : Dir} (hd : d ∈ kingDirs) (fuel : ℕ) (s : S) :
    (walk occ d fuel s).Nodup := by
  induction fuel generalizing s with
  | zero => exact List.nodup_nil
  | succ fuel ih =>
    rw [walk]
    split
    · exact List.nodup_nil
    · rename_i t ht
      split
      · exact List.nodup_cons.mpr ⟨List.not_mem_nil, List.nodup_nil⟩
      · refine List.nodup_cons.mpr ⟨fun hmem => ?_, ih t⟩
        obtain ⟨k, _, hk⟩ := mem_walk.mp hmem
        exact hk.2.1.ne hd hk.1 rfl

theorem behind_nodup {occ : S → Bool} {d : Dir} (hd : d ∈ kingDirs) (fuel : ℕ) (s : S) :
    (behind occ d fuel s).Nodup := by
  induction fuel generalizing s with
  | zero => exact List.nodup_nil
  | succ fuel ih =>
    rw [behind]
    split
    · exact List.nodup_nil
    · split
      · exact walk_nodup hd fuel _
      · exact ih _

end Grid
