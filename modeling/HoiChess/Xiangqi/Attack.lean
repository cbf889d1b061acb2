import HoiChess.Xiangqi.Board
import HoiChess.Xiangqi.Rules

/-!
# The attacks follow the rules

Each attack function is a walk over directions of the mailbox, and with them over
directions of the coordinate board (`lookup_step`).  What a function lists is characterised
by `mem_pawnAttacks` and its companions, no square is listed twice (`attacks_nodup`), and
the length of the list has a bound for each piece (`attacks_length_le`).
-/

namespace HoiChess.Xiangqi

open Grid Rules
open Chess (Color PerColor)

/-! ## Steps in the mailbox -/

/-- The mailbox offset of a direction. -/
def delta (d : Dir) : Int := d.1 + 13 * d.2

/-- A step of at most two files and ranks. -/
def Short (d : Dir) : Prop := (-2 ≤ d.1 ∧ d.1 ≤ 2) ∧ -2 ≤ d.2 ∧ d.2 ≤ 2

instance (d : Dir) : Decidable (Short d) := by unfold Short; infer_instance

theorem invmap_delta (s : Square) (d : Dir) :
    invmap s + delta d = cellAt (fil s + d.1) (rnk s + d.2) := by
  rw [invmap_eq, cellAt, cellAt, delta]
  ring

theorem tablesAt_step (s : Square) {d : Dir} (hd : Short d) : TablesAt (fil s + d.1) (rnk s + d.2) := by
  have hf := fil_lt s
  have hr := rnk_lt s
  obtain ⟨h1, h2⟩ := hd
  exact tablesAt (by omega) (by omega)

theorem lookup_step (s : Square) {d : Dir} (hd : Short d) :
    lookup mapTable (invmap s + delta d) = step s d := by
  rw [invmap_delta]
  exact (tablesAt_step s hd).1

theorem lookup_palace (s : Square) {d : Dir} (hd : Short d) :
    lookup mapPalaceTable (invmap s + delta d) =
      (step s d).filter (fun sq => InPalace .white sq ∨ InPalace .black sq) := by
  rw [invmap_delta]
  exact (tablesAt_step s hd).2.1

theorem lookup_half (s : Square) (c : Color) {d : Dir} (hd : Short d) :
    lookup (mapHalfTable c) (invmap s + delta d) = (step s d).filter (fun sq => OnHalf c sq) := by
  rw [invmap_delta]
  exact (tablesAt_step s hd).2.2 c

theorem short_of_unit {d : Dir} (hd : d ∈ kingDirs) : Short d := by
  obtain ⟨h1, h2, h3, h4, _⟩ := unit_bounds hd
  exact ⟨by omega, by omega⟩

theorem invmap_along {s t : Square} {d : Dir} (h : Along s d 1 t) : invmap t = invmap s + delta d := by
  obtain ⟨hx, hy⟩ := h
  simp only [grid_x, grid_y] at hx hy
  rw [invmap_delta, invmap_eq, cellAt, cellAt]
  omega

theorem mem_attack (s t : Square) {d : Dir} (hd : Short d) :
    t ∈ Board.attack mapTable (invmap s + delta d) ↔ Along s d 1 t := by
  rw [Board.attack, lookup_step s hd, Option.mem_toList, step_eq_some]

theorem mem_attack_palace (s t : Square) {d : Dir} (hd : Short d) :
    t ∈ Board.attack mapPalaceTable (invmap s + delta d) ↔
      Along s d 1 t ∧ (InPalace .white t ∨ InPalace .black t) := by
  rw [Board.attack, lookup_palace s hd, Option.mem_toList, Option.filter_eq_some_iff,
    step_eq_some, decide_eq_true_eq]

theorem mem_attack_half (s t : Square) (c : Color) {d : Dir} (hd : Short d) :
    t ∈ Board.attack (mapHalfTable c) (invmap s + delta d) ↔ Along s d 1 t ∧ OnHalf c t := by
  rw [Board.attack, lookup_half s c hd, Option.mem_toList, Option.filter_eq_some_iff,
    step_eq_some, decide_eq_true_eq]

/-! ## What each function lists -/

/-- The colours of the board are those of the placement. -/
def Colored (b : Board) (man : Placement) : Prop := ∀ sq, b.colorAt sq = (man sq).map Prod.fst

theorem Colored.eq_none {b : Board} {man : Placement} (h : Colored b man) (sq : Square) :
    b.colorAt sq = none ↔ man sq = none := by
  rw [h sq, Option.map_eq_none_iff]

/-- Where a man of a side can stand, as far as its moves depend on it. -/
def InPlace (c : Color) (sq : Square) : Piece → Prop
  | .guard | .king => InPalace c sq
  | .elephant => OnHalf c sq
  | _ => True

namespace Board

variable {b : Board} {man : Placement} {c : Color} {s t : Square}

theorem mem_pawnAttacks : t ∈ pawnAttacks s c ↔
    Along s (forward c) 1 t ∨ (Crossed c s ∧ ∃ d ∈ [((1 : ℤ), (0 : ℤ)), (-1, 0)], Along s d 1 t) := by
  have hright : invmap s + 1 = invmap s + delta (1, 0) := rfl
  have hleft : invmap s - 1 = invmap s + delta (-1, 0) := rfl
  have hforward : ∀ c : Color, Short (forward c) := fun c => by cases c <;> decide
  have hside : t ∈ attack mapTable (invmap s + 1) ++ attack mapTable (invmap s - 1) ↔
      ∃ d ∈ [((1 : ℤ), (0 : ℤ)), (-1, 0)], Along s d 1 t := by
    rw [List.mem_append, hright, hleft, mem_attack s t (by decide), mem_attack s t (by decide)]
    simp
  cases c with
  | white =>
    have hup : invmap s + 13 = invmap s + delta (forward .white) := rfl
    unfold pawnAttacks
    simp only [List.mem_append]
    rw [hup, mem_attack s t (hforward _)]
    refine or_congr_right ?_
    unfold Crossed OnHalf
    simp only [Color.xside, ge_iff_le]
    split
    · rename_i h
      rw [hside, and_iff_right h]
    · rename_i h
      exact iff_of_false (List.not_mem_nil) (fun h' => h h'.1)
  | black =>
    have hdown : invmap s - 13 = invmap s + delta (forward .black) := rfl
    unfold pawnAttacks
    simp only [List.mem_append]
    rw [hdown, mem_attack s t (hforward _)]
    refine or_congr_right ?_
    unfold Crossed OnHalf
    simp only [Color.xside]
    split
    · rename_i h
      rw [hside, and_iff_right h]
    · rename_i h
      exact iff_of_false (List.not_mem_nil) (fun h' => h h'.1)

/-- A step from a palace into a palace stays in it. -/
theorem palace_step {d : Dir} (hd : Short d) (h : Along s d 1 t) (hs : InPalace c s) :
    InPalace .white t ∨ InPalace .black t ↔ InPalace c t := by
  obtain ⟨hx, hy⟩ := h
  obtain ⟨h1, h2⟩ := hd
  simp only [grid_x, grid_y] at hx hy
  cases c with
  | white =>
    refine ⟨fun h => h.resolve_right fun hb => ?_, .inl⟩
    have h3 : rnk s ≤ 2 := hs.2
    have h4 : 7 ≤ rnk t := hb.2
    omega
  | black =>
    refine ⟨fun h => h.resolve_left fun hw => ?_, .inr⟩
    have h3 : 7 ≤ rnk s := hs.2
    have h4 : rnk t ≤ 2 := hw.2
    omega

/-- The directions of `dir_guard`. -/
def guardDirs : List Dir := [(-1, 1), (1, 1), (1, -1), (-1, -1)]

/-- The directions of `dir_rook`. -/
def rookSteps : List Dir := [(1, 0), (0, 1), (-1, 0), (0, -1)]

theorem dirGuard_eq : dirGuard = guardDirs.map delta := by decide
theorem dirRook_eq : dirRook = rookSteps.map delta := by decide

theorem mem_guardDirs {d : Dir} : d ∈ guardDirs ↔ d ∈ bishopDirs := by
  simp only [guardDirs, bishopDirs, List.mem_cons, List.not_mem_nil, or_false]
  tauto

theorem mem_rookSteps {d : Dir} : d ∈ rookSteps ↔ d ∈ rookDirs := by
  simp only [rookSteps, rookDirs, List.mem_cons, List.not_mem_nil, or_false]
  tauto

theorem short_guardDirs : ∀ d ∈ guardDirs, Short d := by decide
theorem short_rookSteps : ∀ d ∈ rookSteps, Short d := by decide

theorem mem_palaceAttacks (hs : InPalace c s) {dirs : List Dir} (hshort : ∀ d ∈ dirs, Short d) :
    t ∈ (dirs.map delta).flatMap (fun d => attack mapPalaceTable (invmap s + d)) ↔
      InPalace c t ∧ ∃ d ∈ dirs, Along s d 1 t := by
  rw [List.flatMap_map, List.mem_flatMap]
  constructor
  · rintro ⟨d, hd, h⟩
    obtain ⟨ha, hp⟩ := (mem_attack_palace s t (hshort d hd)).mp h
    exact ⟨(palace_step (hshort d hd) ha hs).mp hp, d, hd, ha⟩
  · rintro ⟨hp, d, hd, ha⟩
    exact ⟨d, hd,
      (mem_attack_palace s t (hshort d hd)).mpr ⟨ha, (palace_step (hshort d hd) ha hs).mpr hp⟩⟩

theorem mem_guardAttacks (hs : InPalace c s) :
    t ∈ guardAttacks s ↔ InPalace c t ∧ ∃ d ∈ bishopDirs, Along s d 1 t := by
  rw [guardAttacks, dirGuard_eq, mem_palaceAttacks hs short_guardDirs]
  simp only [mem_guardDirs]

theorem mem_kingAttacks (hs : InPalace c s) :
    t ∈ kingAttacks s ↔ InPalace c t ∧ ∃ d ∈ rookDirs, Along s d 1 t := by
  rw [kingAttacks, dirRook_eq, mem_palaceAttacks hs short_rookSteps]
  simp only [mem_rookSteps]

/-! ### Leaps over a free cell -/

/-- The leaps of an elephant: the eye and the target. -/
def elephantLeaps : List (Dir × Dir) := guardDirs.map (fun d => (d, (2 * d.1, 2 * d.2)))

/-- The leaps of a knight: the leg and the target. -/
def knightLeaps : List (Dir × Dir) :=
  [((0, -1), (-1, -2)), ((0, -1), (1, -2)), ((1, 0), (2, -1)), ((1, 0), (2, 1)),
    ((0, 1), (1, 2)), ((0, 1), (-1, 2)), ((-1, 0), (-2, 1)), ((-1, 0), (-2, -1))]

theorem dirElephant_eq :
    dirElephant = elephantLeaps.map (fun l => (delta l.1, delta l.2)) := by decide

theorem dirKnight_eq : dirKnight = knightLeaps.map (fun l => (delta l.1, delta l.2)) := by decide

theorem short_elephantLeaps : ∀ l ∈ elephantLeaps, Short l.1 ∧ Short l.2 := by decide
theorem short_knightLeaps : ∀ l ∈ knightLeaps, Short l.1 ∧ Short l.2 := by decide

/-- A leap on a table that has the squares with `on`. -/
theorem mem_jump {table : List Int} {on : Square → Prop}
    (htable : ∀ t d, Short d → (t ∈ attack table (invmap s + delta d) ↔ Along s d 1 t ∧ on t))
    (hcol : Colored b man) {l : Dir × Dir} (h1 : Short l.1) (h2 : Short l.2) :
    t ∈ b.jump table s (delta l.1, delta l.2) ↔
      ∃ eye, Along s l.1 1 eye ∧ on eye ∧ man eye = none ∧ Along s l.2 1 t ∧ on t := by
  have heye := fun eye => htable eye l.1 h1
  unfold jump
  unfold attack at heye
  simp only [Option.mem_toList] at heye
  cases hl : lookup table (invmap s + delta l.1) with
  | none =>
    simp only [hl] at heye
    simp only [List.not_mem_nil, false_iff, not_exists]
    intro eye h
    exact absurd ((heye eye).mpr ⟨h.1, h.2.1⟩) (by simp)
  | some eye =>
    simp only [hl, Option.some.injEq] at heye
    have hself := (heye eye).mp rfl
    simp only [ne_eq, hcol.eq_none]
    split
    · rename_i hocc
      simp only [List.not_mem_nil, false_iff, not_exists]
      intro eye' h
      have heq : eye = eye' := (heye eye').mpr ⟨h.1, h.2.1⟩
      exact hocc (heq ▸ h.2.2.1)
    · rename_i hfree
      rw [not_not] at hfree
      rw [htable t l.2 h2]
      constructor
      · intro h
        exact ⟨eye, hself.1, hself.2, hfree, h.1, h.2⟩
      · rintro ⟨_, _, _, _, h⟩
        exact h

theorem mem_elephantAttacks (hcol : Colored b man) (hs : OnHalf c s) :
    t ∈ b.elephantAttacks s c ↔ OnHalf c t ∧
      ∃ d ∈ bishopDirs, ∃ eye, Along s d 1 eye ∧ man eye = none ∧ Along s d 2 t := by
  have htwo : ∀ (d : Dir) t, Along s (2 * d.1, 2 * d.2) 1 t ↔ Along s d 2 t := by
    intro d t
    unfold Along
    constructor <;> rintro ⟨h1, h2⟩ <;> exact ⟨by push_cast at *; linarith, by push_cast at *; linarith⟩
  have heye : ∀ {d : Dir} {eye}, Along s d 1 eye → Along s d 2 t → OnHalf c t → OnHalf c eye := by
    intro d eye h1 h2 ht
    have hy1 := h1.2
    have hy2 := h2.2
    simp only [grid_y] at hy1 hy2
    cases c <;> simp only [OnHalf] at * <;> omega
  rw [elephantAttacks, dirElephant_eq, List.flatMap_map, List.mem_flatMap]
  constructor
  · rintro ⟨l, hl, h⟩
    obtain ⟨h1, h2⟩ := short_elephantLeaps l hl
    obtain ⟨d, hd, rfl⟩ := List.mem_map.mp hl
    obtain ⟨eye, ha, _, hfree, ht, hon⟩ :=
      (mem_jump (fun t d hd => mem_attack_half s t c hd) hcol h1 h2).mp h
    exact ⟨hon, d, mem_guardDirs.mp hd, eye, ha, hfree, (htwo d t).mp ht⟩
  · rintro ⟨hon, d, hd, eye, ha, hfree, ht⟩
    have hl : (d, (2 * d.1, 2 * d.2)) ∈ elephantLeaps :=
      List.mem_map.mpr ⟨d, mem_guardDirs.mpr hd, rfl⟩
    obtain ⟨h1, h2⟩ := short_elephantLeaps _ hl
    exact ⟨_, hl, (mem_jump (fun t d hd => mem_attack_half s t c hd) hcol h1 h2).mpr
      ⟨eye, ha, heye ha ht hon, hfree, (htwo d t).mpr ht, hon⟩⟩

/-- A knight's leap is a step along a rank or file and a diagonal one outwards. -/
theorem mem_knightLeaps {d l : Dir} : (d, l) ∈ knightLeaps ↔
    d ∈ rookDirs ∧ ∃ e ∈ bishopDirs, d.1 * e.1 + d.2 * e.2 = 1 ∧ l = (d.1 + e.1, d.2 + e.2) := by
  constructor
  · intro h
    simp only [knightLeaps, List.mem_cons, Prod.mk.injEq, List.not_mem_nil, or_false] at h
    rcases h with ⟨rfl, rfl⟩ | ⟨rfl, rfl⟩ | ⟨rfl, rfl⟩ | ⟨rfl, rfl⟩ | ⟨rfl, rfl⟩ | ⟨rfl, rfl⟩ |
      ⟨rfl, rfl⟩ | ⟨rfl, rfl⟩ <;> decide
  · rintro ⟨hd, e, he, h1, rfl⟩
    rcases rookDirs_cases hd with rfl | rfl | rfl | rfl <;>
      rcases bishopDirs_cases he with rfl | rfl | rfl | rfl <;>
        first | decide | (exfalso; revert h1; decide)

theorem mem_knightAttacks (hcol : Colored b man) :
    t ∈ b.knightAttacks s ↔ ∃ d ∈ rookDirs, ∃ e ∈ bishopDirs, d.1 * e.1 + d.2 * e.2 = 1 ∧
      ∃ leg, Along s d 1 leg ∧ man leg = none ∧ Along leg e 1 t := by
  have htable : ∀ t d, Short d → (t ∈ attack mapTable (invmap s + delta d) ↔ Along s d 1 t ∧ True) :=
    fun t d hd => by rw [and_true]; exact mem_attack s t hd
  have hleg : ∀ {d e : Dir} {leg}, Along s d 1 leg →
      (Along s (d.1 + e.1, d.2 + e.2) 1 t ↔ Along leg e 1 t) := by
    rintro d e leg ⟨hx, hy⟩
    unfold Along
    rw [hx, hy]
    constructor <;> rintro ⟨h1, h2⟩ <;> exact ⟨by push_cast at *; linarith, by push_cast at *; linarith⟩
  rw [knightAttacks, dirKnight_eq, List.flatMap_map, List.mem_flatMap]
  constructor
  · rintro ⟨⟨d, l⟩, hl, h⟩
    obtain ⟨h1, h2⟩ := short_knightLeaps _ hl
    obtain ⟨hd, e, he, hout, rfl⟩ := mem_knightLeaps.mp hl
    obtain ⟨leg, ha, _, hfree, ht, _⟩ := (mem_jump htable hcol h1 h2).mp h
    exact ⟨d, hd, e, he, hout, leg, ha, hfree, (hleg ha).mp ht⟩
  · rintro ⟨d, hd, e, he, hout, leg, ha, hfree, ht⟩
    have hl := mem_knightLeaps.mpr ⟨hd, e, he, hout, rfl⟩
    obtain ⟨h1, h2⟩ := short_knightLeaps _ hl
    exact ⟨_, hl, (mem_jump htable hcol h1 h2).mpr
      ⟨leg, ha, trivial, hfree, (hleg ha).mpr ht, trivial⟩⟩

/-! ### Walks -/

/-- Some man stands on the square. -/
def occupied (man : Placement) (sq : Square) : Bool := (man sq).isSome

theorem rookLoop_eq (hcol : Colored b man) {d : Dir} (hd : d ∈ kingDirs) (fuel : ℕ) (s : Square) :
    b.rookLoop (delta d) fuel (invmap s) = walk (occupied man) d fuel s := by
  induction fuel generalizing s with
  | zero => rfl
  | succ fuel ih =>
    rw [rookLoop, lookup_step s (short_of_unit hd), walk]
    cases hs : step s d with
    | none => rfl
    | some u =>
      have hu := invmap_along (step_eq_some.mp hs)
      simp only [hcol.eq_none, ← hu, ih]
      unfold occupied
      cases man u <;> rfl

theorem cannonCapture_eq (hcol : Colored b man) {d : Dir} (hd : d ∈ kingDirs) (fuel : ℕ) (s : Square) :
    b.cannonCapture c (delta d) fuel (invmap s) =
      (walk (occupied man) d fuel s).filter (fun t => (man t).map Prod.fst = some c.xside) := by
  induction fuel generalizing s with
  | zero => rfl
  | succ fuel ih =>
    rw [cannonCapture, lookup_step s (short_of_unit hd), walk]
    cases hs : step s d with
    | none => rfl
    | some u =>
      have hu := invmap_along (step_eq_some.mp hs)
      simp only [hcol u, ← hu, ih]
      unfold occupied
      cases hm : man u with
      | none => simp [hm]
      | some m =>
        obtain ⟨e, q⟩ := m
        rcases Chess.eq_or_eq_xside c e with rfl | rfl <;> simp [hm]

/-- **A cannon moves up to the screen and takes behind it.** -/
theorem cannonLoop_eq (hcol : Colored b man) {d : Dir} (hd : d ∈ kingDirs) (fuel : ℕ) (s : Square) :
    b.cannonLoop c (delta d) fuel (invmap s) =
      (walk (occupied man) d fuel s).filter (fun t => man t = none) ++
        (behind (occupied man) d fuel s).filter (fun t => (man t).map Prod.fst = some c.xside) := by
  induction fuel generalizing s with
  | zero => rfl
  | succ fuel ih =>
    rw [cannonLoop, lookup_step s (short_of_unit hd), walk, behind]
    cases hs : step s d with
    | none => rfl
    | some u =>
      have hu := invmap_along (step_eq_some.mp hs)
      simp only [ne_eq, hcol.eq_none, ← hu, ih, cannonCapture_eq hcol hd]
      unfold occupied
      cases hm : man u <;> simp [hm]

theorem along_lt_walkFuel {d : Dir} {k : ℕ} (hd : d ∈ kingDirs) (h : Along s d k t) : k < walkFuel := by
  obtain ⟨h1, h2, h3, h4, h5⟩ := unit_bounds hd
  have hx := h.1
  have hy := h.2
  have b1 := fil_lt s
  have b2 := fil_lt t
  have b3 := rnk_lt s
  have b4 := rnk_lt t
  simp only [grid_x, grid_y] at hx hy
  have hc : d.1 = -1 ∨ d.1 = 0 ∨ d.1 = 1 := by omega
  have hc' : d.2 = -1 ∨ d.2 = 0 ∨ d.2 = 1 := by omega
  unfold walkFuel
  rcases hc with hc | hc | hc <;> rcases hc' with hc' | hc' | hc' <;> rw [hc] at hx <;>
    rw [hc'] at hy <;> omega

theorem rookDirs_unit : ∀ d ∈ rookDirs, d ∈ kingDirs := fun _ hd => mem_kingDirs.mpr (.inl hd)

theorem occupied_eq_false (sq : Square) : occupied man sq = false ↔ man sq = none := by
  unfold occupied
  cases man sq <;> simp

theorem occupied_eq_true (sq : Square) : occupied man sq = true ↔ man sq ≠ none := by
  unfold occupied
  cases man sq <;> simp

/-- The walks along ranks and files reach what can be slid to. -/
theorem exists_mem_walk :
    (∃ d ∈ rookDirs, t ∈ walk (occupied man) d walkFuel s) ↔ Aligned rookDirs s t ∧ Clear man s t := by
  have hslides : (∃ d ∈ rookDirs, t ∈ walk (occupied man) d walkFuel s) ↔
      Slides rookDirs (occupied man) s t := by
    refine exists_congr fun d => and_congr_right fun hd => ?_
    rw [mem_walk]
    constructor
    · rintro ⟨k, _, h⟩
      exact ⟨k, h⟩
    · rintro ⟨k, h⟩
      exact ⟨k, (along_lt_walkFuel (rookDirs_unit d hd) h.2.1).le, h⟩
  rw [hslides, slides_iff rookDirs_unit]
  simp only [occupied_eq_false]
  exact Iff.rfl

theorem exists_mem_behind :
    (∃ d ∈ rookDirs, t ∈ behind (occupied man) d walkFuel s) ↔
      Aligned rookDirs s t ∧ OneScreen man s t := by
  have hfuel : ∀ d ∈ rookDirs, t ∈ behind (occupied man) d walkFuel s ↔
      ∃ fuel, t ∈ behind (occupied man) d fuel s := by
    intro d hd
    refine ⟨fun h => ⟨_, h⟩, ?_⟩
    rintro ⟨fuel, h⟩
    obtain ⟨k, l, u, _, hk, hocc, hl⟩ := mem_behind.mp h
    exact mem_behind.mpr ⟨k, l, u, (along_lt_walkFuel (rookDirs_unit d hd) (hk.2.1.trans hl.2.1)).le,
      hk, hocc, hl⟩
  have hscreen : OneScreen man s t ↔ ∃ u, Between s t u ∧ occupied man u = true ∧
      ∀ v, Between s t v → occupied man v = true → v = u := by
    simp only [occupied_eq_true]
    exact Iff.rfl
  rw [hscreen]
  constructor
  · rintro ⟨d, hd, h⟩
    obtain ⟨ha, hs⟩ := (behind_iff (rookDirs_unit d hd)).mp ((hfuel d hd).mp h)
    exact ⟨⟨d, hd, ha⟩, hs⟩
  · rintro ⟨⟨d, hd, ha⟩, hs⟩
    exact ⟨d, hd, (hfuel d hd).mpr ((behind_iff (rookDirs_unit d hd)).mpr ⟨ha, hs⟩)⟩

theorem mem_rookAttacks (hcol : Colored b man) :
    t ∈ b.rookAttacks s ↔ Aligned rookDirs s t ∧ Clear man s t := by
  rw [rookAttacks, dirRook_eq, List.flatMap_map, List.mem_flatMap, ← exists_mem_walk]
  simp only [mem_rookSteps]
  refine exists_congr fun d => and_congr_right fun hd => ?_
  rw [rookLoop_eq hcol (rookDirs_unit d hd)]

theorem mem_cannonAttacks (hcol : Colored b man) :
    t ∈ b.cannonAttacks s c ↔ (man t = none ∧ Aligned rookDirs s t ∧ Clear man s t) ∨
      ((man t).map Prod.fst = some c.xside ∧ Aligned rookDirs s t ∧ OneScreen man s t) := by
  rw [cannonAttacks, dirRook_eq, List.flatMap_map, List.mem_flatMap, ← exists_mem_walk,
    ← exists_mem_behind]
  simp only [mem_rookSteps]
  have hdir : ∀ d ∈ rookDirs, t ∈ b.cannonLoop c (delta d) walkFuel (invmap s) ↔
      (man t = none ∧ t ∈ walk (occupied man) d walkFuel s) ∨
        ((man t).map Prod.fst = some c.xside ∧ t ∈ behind (occupied man) d walkFuel s) := by
    intro d hd
    rw [cannonLoop_eq hcol (rookDirs_unit d hd), List.mem_append, List.mem_filter, List.mem_filter,
      decide_eq_true_eq, decide_eq_true_eq]
    exact or_congr And.comm And.comm
  constructor
  · rintro ⟨d, hd, h⟩
    rcases (hdir d hd).mp h with ⟨h1, h2⟩ | ⟨h1, h2⟩
    · exact .inl ⟨h1, d, hd, h2⟩
    · exact .inr ⟨h1, d, hd, h2⟩
  · rintro (⟨h1, d, hd, h2⟩ | ⟨h1, d, hd, h2⟩)
    · exact ⟨d, hd, (hdir d hd).mpr (.inl ⟨h1, h2⟩)⟩
    · exact ⟨d, hd, (hdir d hd).mpr (.inr ⟨h1, h2⟩)⟩

/-- **The attacks are the moves of the rules**, to free squares and to men of the other side. -/
theorem mem_attacks (hcol : Colored b man) {p : Piece} (hs : InPlace c s p) {cap : Option Piece}
    (ht : man t = cap.map (fun q => (c.xside, q))) :
    t ∈ b.attacks p s c ↔ Moves man c cap.isSome s t p := by
  cases p with
  | pawn => exact mem_pawnAttacks
  | guard => exact mem_guardAttacks hs
  | elephant => exact mem_elephantAttacks hcol hs
  | knight => exact mem_knightAttacks hcol
  | cannon =>
    simp only [attacks, Moves]
    rw [mem_cannonAttacks hcol, ht]
    cases cap <;> simp
  | rook => exact mem_rookAttacks hcol
  | king => exact mem_kingAttacks hs

/-! ## No square is listed twice -/

theorem nodup_flatMap {ι α : Type} {l : List ι} {g : ι → List α} (hl : l.Nodup)
    (hg : ∀ i ∈ l, (g i).Nodup) (huniq : ∀ i ∈ l, ∀ j ∈ l, ∀ t, t ∈ g i → t ∈ g j → i = j) :
    (l.flatMap g).Nodup := by
  refine List.nodup_flatMap.mpr ⟨hg, hl.pairwise_of_forall_ne fun i hi j hj hij => ?_⟩
  exact List.disjoint_left.mpr fun t ht ht' => hij (huniq i hi j hj t ht ht')

theorem attack_nodup (table : List Int) (x : Int) : (attack table x).Nodup := by
  unfold attack
  cases lookup table x <;> simp

theorem jump_nodup (table : List Int) (d : Int × Int) : (b.jump table s d).Nodup := by
  unfold jump
  split
  · exact List.nodup_nil
  · split
    · exact List.nodup_nil
    · exact attack_nodup table _

/-- A square determines the direction of a single step to it. -/
theorem along_one_unique {d e : Dir} (h : Along s d 1 t) (h' : Along s e 1 t) : d = e := by
  obtain ⟨h1, h2⟩ := h
  obtain ⟨h3, h4⟩ := h'
  exact Prod.ext (by push_cast at *; linarith) (by push_cast at *; linarith)

theorem pawnAttacks_nodup : (pawnAttacks s c).Nodup := by
  have hnodup : ∀ dirs : List Dir, dirs.Nodup → (∀ d ∈ dirs, Short d) →
      (dirs.flatMap (fun d => attack mapTable (invmap s + delta d))).Nodup := by
    intro dirs hdirs hshort
    refine nodup_flatMap hdirs (fun d _ => attack_nodup _ _) fun d hd e he t hdt het => ?_
    exact along_one_unique ((mem_attack s t (hshort d hd)).mp hdt)
      ((mem_attack s t (hshort e he)).mp het)
  cases c with
  | white =>
    unfold pawnAttacks
    simp only
    split
    · have h := hnodup [(0, 1), (1, 0), (-1, 0)] (by decide) (by decide)
      simpa [delta, sub_eq_add_neg] using h
    · simpa using attack_nodup mapTable (invmap s + 13)
  | black =>
    unfold pawnAttacks
    simp only
    split
    · have h := hnodup [(0, -1), (1, 0), (-1, 0)] (by decide) (by decide)
      simpa [delta, sub_eq_add_neg] using h
    · simpa using attack_nodup mapTable (invmap s - 13)

theorem palaceAttacks_nodup {dirs : List Dir} (hdirs : dirs.Nodup) (hshort : ∀ d ∈ dirs, Short d) :
    ((dirs.map delta).flatMap (fun d => attack mapPalaceTable (invmap s + d))).Nodup := by
  rw [List.flatMap_map]
  refine nodup_flatMap hdirs (fun d _ => attack_nodup _ _) fun d hd e he t hdt het => ?_
  exact along_one_unique ((mem_attack_palace s t (hshort d hd)).mp hdt).1
    ((mem_attack_palace s t (hshort e he)).mp het).1

theorem leaps_nodup {table : List Int} {on : Square → Prop}
    (htable : ∀ t d, Short d → (t ∈ attack table (invmap s + delta d) ↔ Along s d 1 t ∧ on t))
    (hcol : Colored b man) {leaps : List (Dir × Dir)} (hleaps : leaps.Nodup)
    (hshort : ∀ l ∈ leaps, Short l.1 ∧ Short l.2)
    (hinj : ∀ l ∈ leaps, ∀ l' ∈ leaps, l.2 = l'.2 → l = l') :
    ((leaps.map (fun l => (delta l.1, delta l.2))).flatMap (b.jump table s)).Nodup := by
  rw [List.flatMap_map]
  refine nodup_flatMap hleaps (fun l _ => jump_nodup _ _) fun l hl l' hl' t ht ht' => ?_
  obtain ⟨_, _, _, _, h, _⟩ := (mem_jump htable hcol (hshort l hl).1 (hshort l hl).2).mp ht
  obtain ⟨_, _, _, _, h', _⟩ := (mem_jump htable hcol (hshort l' hl').1 (hshort l' hl').2).mp ht'
  exact hinj l hl l' hl' (along_one_unique h h')

theorem cannonLoop_nodup (hcol : Colored b man) {d : Dir} (hd : d ∈ kingDirs) :
    (b.cannonLoop c (delta d) walkFuel (invmap s)).Nodup := by
  rw [cannonLoop_eq hcol hd]
  refine List.Nodup.append ((walk_nodup hd _ _).filter _) ((behind_nodup hd _ _).filter _) ?_
  intro t h1 h2
  have hfree := (List.mem_filter.mp h1).2
  have henemy := (List.mem_filter.mp h2).2
  rw [decide_eq_true_eq] at hfree henemy
  rw [hfree] at henemy
  cases henemy

/-- **No attack lists a square twice.** -/
theorem attacks_nodup (hcol : Colored b man) (p : Piece) (s : Square) (c : Color) :
    (b.attacks p s c).Nodup := by
  have hslide : ∀ {d e : Dir} {t : Square}, d ∈ rookSteps → e ∈ rookSteps →
      (∃ k, 0 < k ∧ Along s d k t) → (∃ k, 0 < k ∧ Along s e k t) → d = e := by
    rintro d e t hd he ⟨k, hk, ha⟩ ⟨l, hl, ha'⟩
    exact (Along.unit_unique (rookDirs_unit d (mem_rookSteps.mp hd))
      (rookDirs_unit e (mem_rookSteps.mp he)) hk hl ha ha').1
  have hwalk : ∀ {d : Dir} {t : Square}, t ∈ walk (occupied man) d walkFuel s →
      ∃ k, 0 < k ∧ Along s d k t := by
    intro d t ht
    obtain ⟨k, _, hk⟩ := mem_walk.mp ht
    exact ⟨k, hk.1, hk.2.1⟩
  have hbehind : ∀ {d : Dir} {t : Square}, t ∈ behind (occupied man) d walkFuel s →
      ∃ k, 0 < k ∧ Along s d k t := by
    intro d t ht
    obtain ⟨k, l, u, _, hk, _, hl⟩ := mem_behind.mp ht
    exact ⟨k + l, Nat.add_pos_left hk.1 l, hk.2.1.trans hl.2.1⟩
  cases p with
  | pawn => exact pawnAttacks_nodup
  | guard =>
    simp only [attacks, guardAttacks, dirGuard_eq]
    exact palaceAttacks_nodup (by decide) short_guardDirs
  | elephant =>
    simp only [attacks, elephantAttacks, dirElephant_eq]
    exact leaps_nodup (fun t d hd => mem_attack_half s t c hd) hcol (by decide) short_elephantLeaps
      (by decide)
  | knight =>
    simp only [attacks, knightAttacks, dirKnight_eq]
    have hall : ∀ t d, Short d → (t ∈ attack mapTable (invmap s + delta d) ↔ Along s d 1 t ∧ True) :=
      fun t d hd => by rw [and_true]; exact mem_attack s t hd
    exact leaps_nodup hall hcol (by decide) short_knightLeaps
      (by decide)
  | cannon =>
    simp only [attacks, cannonAttacks, dirRook_eq, List.flatMap_map]
    have hline : ∀ d ∈ rookSteps, ∀ t ∈ b.cannonLoop c (delta d) walkFuel (invmap s),
        ∃ k, 0 < k ∧ Along s d k t := by
      intro d hd t ht
      rw [cannonLoop_eq hcol (rookDirs_unit d (mem_rookSteps.mp hd)), List.mem_append,
        List.mem_filter, List.mem_filter] at ht
      exact ht.elim (fun h => hwalk h.1) (fun h => hbehind h.1)
    refine nodup_flatMap (by decide)
      (fun d hd => cannonLoop_nodup hcol (rookDirs_unit d (mem_rookSteps.mp hd))) ?_
    exact fun d hd e he t ht ht' => hslide hd he (hline d hd t ht) (hline e he t ht')
  | rook =>
    simp only [attacks, rookAttacks, dirRook_eq, List.flatMap_map]
    have hline : ∀ d ∈ rookSteps, b.rookLoop (delta d) walkFuel (invmap s) =
        walk (occupied man) d walkFuel s :=
      fun d hd => rookLoop_eq hcol (rookDirs_unit d (mem_rookSteps.mp hd)) _ _
    refine nodup_flatMap (by decide) (fun d hd => ?_) fun d hd e he t ht ht' => ?_
    · rw [hline d hd]
      exact walk_nodup (rookDirs_unit d (mem_rookSteps.mp hd)) _ _
    · rw [hline d hd] at ht
      rw [hline e he] at ht'
      exact hslide hd he (hwalk ht) (hwalk ht')
  | king =>
    simp only [attacks, kingAttacks, dirRook_eq]
    exact palaceAttacks_nodup (by decide) short_rookSteps

/-! ## How many squares are listed -/

/-- An upper bound of the number of squares that a man attacks. -/
def mobility : Piece → Nat
  | .pawn => 3
  | .guard => 4
  | .elephant => 4
  | .knight => 8
  | .cannon => 40
  | .rook => 40
  | .king => 4

theorem attack_length_le (table : List Int) (x : Int) : (attack table x).length ≤ 1 := by
  unfold attack
  cases lookup table x <;> simp

theorem jump_length_le (table : List Int) (d : Int × Int) : (b.jump table s d).length ≤ 1 := by
  unfold jump
  split
  · exact Nat.zero_le _
  · split
    · exact Nat.zero_le _
    · exact attack_length_le table _

theorem flatMap_length_le {ι : Type} {l : List ι} {g : ι → List Square} {n : Nat}
    (hg : ∀ i ∈ l, (g i).length ≤ n) : (l.flatMap g).length ≤ l.length * n := by
  induction l with
  | nil => simp
  | cons i l ih =>
    have h1 := hg i List.mem_cons_self
    have h2 := ih fun j hj => hg j (List.mem_cons_of_mem i hj)
    rw [List.flatMap_cons, List.length_append, List.length_cons, Nat.succ_mul]
    omega

theorem cannonCapture_length_le (d : Int) (fuel : ℕ) (x : Int) :
    (b.cannonCapture c d fuel x).length ≤ fuel := by
  induction fuel generalizing x with
  | zero => exact Nat.le_refl 0
  | succ fuel ih =>
    rw [cannonCapture]
    split
    · exact Nat.zero_le _
    · split
      · exact Nat.zero_le _
      split
      · exact Nat.succ_le_succ (Nat.zero_le fuel)
      · exact (ih _).trans (Nat.le_succ fuel)

theorem cannonLoop_length_le (d : Int) (fuel : ℕ) (x : Int) :
    (b.cannonLoop c d fuel x).length ≤ fuel := by
  induction fuel generalizing x with
  | zero => exact Nat.le_refl 0
  | succ fuel ih =>
    rw [cannonLoop]
    split
    · exact Nat.zero_le _
    · split
      · exact (cannonCapture_length_le d fuel _).trans (Nat.le_succ fuel)
      · exact Nat.succ_le_succ (ih _)

theorem rookLoop_length_le (d : Int) (fuel : ℕ) (x : Int) : (b.rookLoop d fuel x).length ≤ fuel := by
  induction fuel generalizing x with
  | zero => exact Nat.le_refl 0
  | succ fuel ih =>
    rw [rookLoop]
    split
    · exact Nat.zero_le _
    · split
      · exact Nat.succ_le_succ (ih _)
      · exact Nat.succ_le_succ (Nat.zero_le fuel)

theorem attacks_length_le (p : Piece) (s : Square) (c : Color) :
    (b.attacks p s c).length ≤ mobility p := by
  have hstep : ∀ table x, (attack table x).length ≤ 1 := attack_length_le
  cases p with
  | pawn =>
    cases c with
    | white =>
      simp only [attacks, pawnAttacks, List.length_append, mobility]
      have h1 := hstep mapTable (invmap s + 13)
      have h2 := hstep mapTable (invmap s + 1)
      have h3 := hstep mapTable (invmap s - 1)
      split
      · rw [List.length_append]
        omega
      · rw [List.length_nil]
        omega
    | black =>
      simp only [attacks, pawnAttacks, List.length_append, mobility]
      have h1 := hstep mapTable (invmap s - 13)
      have h2 := hstep mapTable (invmap s + 1)
      have h3 := hstep mapTable (invmap s - 1)
      split
      · rw [List.length_append]
        omega
      · rw [List.length_nil]
        omega
  | guard => exact flatMap_length_le (n := 1) fun d _ => hstep _ _
  | elephant => exact flatMap_length_le (n := 1) fun d _ => jump_length_le _ _
  | knight => exact flatMap_length_le (n := 1) fun d _ => jump_length_le _ _
  | cannon => exact flatMap_length_le (n := walkFuel) fun d _ => cannonLoop_length_le d walkFuel _
  | rook => exact flatMap_length_le (n := walkFuel) fun d _ => rookLoop_length_le d walkFuel _
  | king => exact flatMap_length_le (n := 1) fun d _ => hstep _ _

/-- Nothing is in the way of a rook in the corner. -/
example : (Board.clear.attacks .rook 0 .white).length = 17 := by decide +kernel

end Board

end HoiChess.Xiangqi
