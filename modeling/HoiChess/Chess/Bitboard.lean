import HoiChess.Lib.WordSet
import HoiChess.Chess.Basic

/-!
# Bitboards and their constant tables

A bitboard is a 64-bit word whose bit `8 * rank + file` stands for a square.
The tables `attack_bb`, `pawn_capt_bb` and `ray_bb` are filled once with the
0x88 technique; here each table is the function computing one entry with the
loops of the initialisation.  `step88_eq` ties 0x88 arithmetic to the
coordinate grid, and every table is then described by coordinates:
`mem_leaper`, `mem_bishopTable`, `mem_pawnCaptBb` and `mem_rayBb`.
-/

namespace HoiChess.Chess

open WordSet Grid

abbrev Bitboard := BitVec 64

abbrev nullBitboard : Bitboard := 0#64

abbrev Bitboard.setbit (bb : Bitboard) (b : Square) : Bitboard := WordSet.insert bb b
abbrev Bitboard.clearbit (bb : Bitboard) (b : Square) : Bitboard := WordSet.erase bb b
abbrev Bitboard.testbit (bb : Bitboard) (b : Square) : Bool := WordSet.mem bb b

/-- Conversion to `bool`: some bit is set. -/
abbrev Bitboard.any (bb : Bitboard) : Bool := bb != nullBitboard

/-- `popcnt`: the number of set bits. -/
abbrev Bitboard.popcnt (bb : Bitboard) : Nat := WordSet.count bb

theorem any_iff (bb : Bitboard) : Bitboard.any bb = true ↔ ∃ sq, mem bb sq = true := by
  rw [Bitboard.any, bne_iff_ne, ne_zero_iff]

/-- `lsb()`: the lowest set bit. -/
def lsb : Scan 64 where
  pick bb := (List.finRange 64).find? (mem bb)
  pick_mem bb i h := List.find?_some h
  pick_none bb h := by
    rw [eq_zero_iff]
    intro i
    simpa using List.find?_eq_none.mp h i (List.mem_finRange i)

/-- `msb()`: the highest set bit. -/
def msb : Scan 64 where
  pick bb :=
    if h : bb.toNat ≠ 0 then some ⟨bb.toNat.log2, (Nat.log2_lt h).mpr bb.isLt⟩ else none
  pick_mem bb i h := by
    split at h
    · rename_i hne
      cases h
      rw [mem_eq_getLsbD]
      exact Nat.testBit_log2 hne
    · cases h
  pick_none bb h := by
    split at h
    · cases h
    · rename_i hne
      exact BitVec.eq_of_toNat_eq (by simpa using hne)

abbrev Hashkey := BitVec 64

/-- What differs between two builds of the program: whether `firstbit` scans
from the low or from the high end, and the contents of the key tables. -/
class Build where
  firstbit : Scan 64
  hashkeys : Color → Piece → Square → Hashkey
  hashSide : Hashkey
  hashEp : Square → Hashkey
  hashWk : Hashkey
  hashWq : Hashkey
  hashBk : Hashkey
  hashBq : Hashkey

/-- The squares visited by `while (bb) { sq = bb.firstbit(); bb.clearbit(sq); .. }`. -/
def squares [b : Build] (bb : Bitboard) : List Square := drain b.firstbit bb

@[simp] theorem mem_squares [Build] (bb : Bitboard) (sq : Square) :
    sq ∈ squares bb ↔ mem bb sq = true := mem_drain _ bb sq

theorem squares_nodup [Build] (bb : Bitboard) : (squares bb).Nodup := drain_nodup _ bb

/-- `Bitboard::file[f]` -/
def fileBb (f : Fin 8) : Bitboard :=
  (List.finRange 8).foldl (fun bb r => Bitboard.setbit bb (mkSquare r f)) nullBitboard

/-- `Bitboard::rank[r]` -/
def rankBb (r : Fin 8) : Bitboard :=
  (List.finRange 8).foldl (fun bb f => Bitboard.setbit bb (mkSquare r f)) nullBitboard

@[simp] theorem mem_fileBb (f : Fin 8) (sq : Square) :
    mem (fileBb f) sq = decide (fil sq = f.val) := by
  revert f sq; decide

@[simp] theorem mem_rankBb (r : Fin 8) (sq : Square) :
    mem (rankBb r) sq = decide (rnk sq = r.val) := by
  revert r sq; decide

/-! ## 0x88 arithmetic -/

/-- `t & 0x88`: the 0x88 index `t` is off the board. -/
def off88 (t : BitVec 32) : Bool := t &&& 0x88#32 != 0#32

/-- `map0x88[t]`: row `r` of the table holds `8r .. 8r+7` and eight times -1. -/
def map0x88 (t : BitVec 32) : Option Square :=
  if h : t.toNat < 128 ∧ t.toNat % 16 < 8 then
    some ⟨t.toNat / 16 * 8 + t.toNat % 16, by omega⟩
  else none

/-- The 0x88 index `f` of the initialisation loops with `map0x88[f] = sq`. -/
def to88 (sq : Square) : BitVec 32 := BitVec.ofNat 32 (rnk sq * 16 + fil sq)

/-- The 0x88 offset of a displacement by files and ranks. -/
def dir88 (d : Dir) : BitVec 32 := BitVec.ofInt 32 (d.1 + 16 * d.2)

def setbit88 (bb : Bitboard) (t : BitVec 32) : Bitboard :=
  match map0x88 t with
  | none => bb
  | some dst => Bitboard.setbit bb dst

/-- One step of an initialisation loop seen on the coordinate grid. -/
def Step88 (sq : Square) (d : Dir) : Prop :=
  match step sq d with
  | none => off88 (to88 sq + dir88 d) = true
  | some s => off88 (to88 sq + dir88 d) = false ∧ map0x88 (to88 sq + dir88 d) = some s ∧
      to88 sq + dir88 d = to88 s

instance (sq : Square) (d : Dir) : Decidable (Step88 sq d) := by
  unfold Step88
  exact match step sq d with
    | none => inferInstanceAs (Decidable (_ = _))
    | some _ => inferInstanceAs (Decidable (_ ∧ _ ∧ _))

theorem step88_all : ∀ sq : Square, ∀ i j : Fin 5,
    Step88 sq ((i.val : ℤ) - 2, (j.val : ℤ) - 2) := by
  decide +kernel

theorem step88 (sq : Square) {d : Dir} (h1 : -2 ≤ d.1 ∧ d.1 ≤ 2) (h2 : -2 ≤ d.2 ∧ d.2 ≤ 2) :
    Step88 sq d := by
  have h := step88_all sq ⟨(d.1 + 2).toNat, by omega⟩ ⟨(d.2 + 2).toNat, by omega⟩
  have e1 : ((d.1 + 2).toNat : ℤ) - 2 = d.1 := by omega
  have e2 : ((d.2 + 2).toNat : ℤ) - 2 = d.2 := by omega
  simp only [e1, e2] at h
  exact h

theorem step88_none {sq : Square} {d : Dir} (h : Step88 sq d) (hs : step sq d = none) :
    off88 (to88 sq + dir88 d) = true := by
  unfold Step88 at h; rw [hs] at h; exact h

theorem step88_some {sq s : Square} {d : Dir} (h : Step88 sq d) (hs : step sq d = some s) :
    off88 (to88 sq + dir88 d) = false ∧ map0x88 (to88 sq + dir88 d) = some s ∧
      to88 sq + dir88 d = to88 s := by
  unfold Step88 at h; rw [hs] at h; exact h

/-! ## Leapers -/

/-- One pass over `knight_dir0x88`, `king_dir0x88` or the pawn offsets. -/
def leaper (dirs : List Dir) (sq : Square) : Bitboard :=
  dirs.foldl
    (fun bb d => if off88 (to88 sq + dir88 d) then bb else setbit88 bb (to88 sq + dir88 d))
    nullBitboard

theorem mem_leaper_foldl (dirs : List Dir) (sq t : Square) (bb : Bitboard)
    (h : ∀ d ∈ dirs, Step88 sq d) :
    mem (dirs.foldl (fun bb d =>
      if off88 (to88 sq + dir88 d) then bb else setbit88 bb (to88 sq + dir88 d)) bb) t = true ↔
      mem bb t = true ∨ ∃ d ∈ dirs, Along sq d 1 t := by
  induction dirs generalizing bb with
  | nil => simp
  | cons d dirs ih =>
    rw [List.foldl_cons, ih _ (fun e he => h e (List.mem_cons_of_mem _ he))]
    have hd := h d (List.mem_cons_self ..)
    cases hs : step sq d with
    | none =>
      have hno : ¬ Along sq d 1 t := by
        intro ha
        rw [step_eq_some.mpr ha] at hs
        cases hs
      simp [step88_none hd hs, hno]
    | some s =>
      obtain ⟨ho, hm, _⟩ := step88_some hd hs
      have ha : Along sq d 1 t ↔ s = t := by
        rw [← step_eq_some, hs, Option.some.injEq]
      simp only [ho, Bool.false_eq_true, if_false, setbit88, hm, mem_insert, Bool.or_eq_true,
        decide_eq_true_eq, List.mem_cons, exists_eq_or_imp, ha, or_assoc]

/-- `knight_dir0x88` as displacements: -31, -33, 31, 33, -18, 18, -14, 14. -/
def knightDirs : List Dir :=
  [(1, -2), (-1, -2), (-1, 2), (1, 2), (-2, -1), (2, 1), (2, -1), (-2, 1)]

/-- `king_dir0x88` as displacements: -1, 1, -16, 16, -15, 15, -17, 17. -/
def kingStepDirs : List Dir :=
  [(-1, 0), (1, 0), (0, -1), (0, 1), (1, -1), (-1, 1), (-1, -1), (1, 1)]

/-- The capture offsets 15, 17 of a white and -15, -17 of a black pawn. -/
def pawnCaptDirs : Color → List Dir
  | .white => [(-1, 1), (1, 1)]
  | .black => [(1, -1), (-1, -1)]

theorem mem_leaper {dirs : List Dir}
    (h : ∀ d ∈ dirs, (-2 ≤ d.1 ∧ d.1 ≤ 2) ∧ (-2 ≤ d.2 ∧ d.2 ≤ 2)) (sq t : Square) :
    mem (leaper dirs sq) t = true ↔ ∃ d ∈ dirs, Along sq d 1 t := by
  rw [leaper, mem_leaper_foldl dirs sq t _ (fun d hd => step88 sq (h d hd).1 (h d hd).2)]
  simp

/-! ## Sliders on the empty board -/

/-- `while (!(t & 0x88)) { setbit(map0x88[t]); t += dir; }` -/
def slideLoop (d : Dir) : Nat → BitVec 32 → Bitboard → Bitboard
  | 0, _, bb => bb
  | fuel + 1, t, bb =>
    if off88 t then bb else slideLoop d fuel (t + dir88 d) (setbit88 bb t)

/-- `bishop_dir0x88` as displacements: -15, 15, -17, 17. -/
def bishopTableDirs : List Dir := [(1, -1), (-1, 1), (-1, -1), (1, 1)]

/-- `rook_dir0x88` as displacements: -1, 1, -16, 16. -/
def rookTableDirs : List Dir := [(-1, 0), (1, 0), (0, -1), (0, 1)]

/-- A ray leaves the board after at most seven steps. -/
def slider (dirs : List Dir) (sq : Square) : Bitboard :=
  dirs.foldl (fun bb d => slideLoop d 8 (to88 sq + dir88 d) bb) nullBitboard

/-- `attack_bb[ptype][from]`; the pawn row is never filled. -/
def attackBb : Piece → Square → Bitboard
  | .pawn, _ => nullBitboard
  | .knight, sq => leaper knightDirs sq
  | .bishop, sq => slider bishopTableDirs sq
  | .rook, sq => slider rookTableDirs sq
  | .queen, sq => slider bishopTableDirs sq ||| slider rookTableDirs sq
  | .king, sq => leaper kingStepDirs sq

def pawnCaptBb (side : Color) (sq : Square) : Bitboard := leaper (pawnCaptDirs side) sq

theorem mem_slideLoop {d : Dir} (h1 : -2 ≤ d.1 ∧ d.1 ≤ 2) (h2 : -2 ≤ d.2 ∧ d.2 ≤ 2)
    (fuel : Nat) (sq t : Square) (bb : Bitboard) :
    mem (slideLoop d fuel (to88 sq + dir88 d) bb) t = true ↔
      mem bb t = true ∨ t ∈ walk (fun _ => false) d fuel sq := by
  induction fuel generalizing sq bb with
  | zero => simp [slideLoop, walk]
  | succ fuel ih =>
    have hd := step88 sq h1 h2
    cases hs : step sq d with
    | none => simp [slideLoop, walk, hs, step88_none hd hs]
    | some s =>
      obtain ⟨ho, hm, he⟩ := step88_some hd hs
      rw [slideLoop, ho, if_neg (by decide), setbit88, hm, he, ih s]
      simp only [walk, hs, mem_insert, Bool.or_eq_true, decide_eq_true_eq, Bool.false_eq_true,
        if_false, List.mem_cons, or_assoc, eq_comm (a := s)]

theorem along_lt_eight {s t : Square} {d : Dir} {k : ℕ} (hd : d ∈ kingDirs)
    (h : Along s d k t) : k < 8 := by
  obtain ⟨h1, h2, h3, h4, h5⟩ := unit_bounds hd
  obtain ⟨⟨sx0, sx1⟩, sy0, sy1⟩ := bounds s
  obtain ⟨⟨tx0, tx1⟩, ty0, ty1⟩ := bounds t
  obtain ⟨hx, hy⟩ := h
  simp only [grid_width, grid_height] at sx1 sy1 tx1 ty1
  have c1 : d.1 = -1 ∨ d.1 = 0 ∨ d.1 = 1 := by omega
  have c2 : d.2 = -1 ∨ d.2 = 0 ∨ d.2 = 1 := by omega
  rcases c1 with c1 | c1 | c1 <;> rcases c2 with c2 | c2 | c2 <;> rw [c1] at hx h5 <;>
    rw [c2] at hy h5 <;> omega

theorem mem_walk_empty {s t : Square} {d : Dir} (hd : d ∈ kingDirs) :
    t ∈ walk (fun _ => false) d 8 s ↔ ∃ k, 0 < k ∧ Along s d k t := by
  rw [mem_walk]
  constructor
  · rintro ⟨k, _, h0, h, _⟩
    exact ⟨k, h0, h⟩
  · rintro ⟨k, h0, h⟩
    exact ⟨k, (along_lt_eight hd h).le, h0, h, fun _ _ _ _ _ => rfl⟩

theorem mem_slider_foldl {dirs : List Dir} (h : ∀ d ∈ dirs, d ∈ kingDirs) (sq t : Square)
    (bb : Bitboard) :
    mem (dirs.foldl (fun bb d => slideLoop d 8 (to88 sq + dir88 d) bb) bb) t = true ↔
      mem bb t = true ∨ Aligned dirs sq t := by
  induction dirs generalizing bb with
  | nil => simp [Aligned]
  | cons d dirs ih =>
    have hd := h d (List.mem_cons_self ..)
    obtain ⟨b1, b2, b3, b4, _⟩ := unit_bounds hd
    rw [List.foldl_cons, ih (fun e he => h e (List.mem_cons_of_mem _ he)),
      mem_slideLoop ⟨by omega, by omega⟩ ⟨by omega, by omega⟩, mem_walk_empty hd]
    simp [Aligned, or_assoc]

theorem mem_slider {dirs : List Dir} (h : ∀ d ∈ dirs, d ∈ kingDirs) (sq t : Square) :
    mem (slider dirs sq) t = true ↔ Aligned dirs sq t := by
  rw [slider, mem_slider_foldl h]
  simp

theorem aligned_congr {dirs dirs' : List Dir} (h : ∀ d, d ∈ dirs ↔ d ∈ dirs') {s t : Square} :
    Aligned dirs s t ↔ Aligned dirs' s t := by
  simp only [Aligned, h]

theorem mem_bishopTable (sq t : Square) :
    mem (attackBb .bishop sq) t = true ↔ Aligned bishopDirs sq t := by
  rw [attackBb, mem_slider (by decide)]
  apply aligned_congr
  intro d
  simp only [bishopTableDirs, bishopDirs, List.mem_cons, List.not_mem_nil, or_false]
  tauto

theorem mem_rookTable (sq t : Square) :
    mem (attackBb .rook sq) t = true ↔ Aligned rookDirs sq t := by
  rw [attackBb, mem_slider (by decide)]
  apply aligned_congr
  intro d
  simp only [rookTableDirs, rookDirs, List.mem_cons, List.not_mem_nil, or_false]
  tauto

theorem mem_knightTable (sq t : Square) :
    mem (attackBb .knight sq) t = true ↔ ∃ d ∈ knightDirs, Along sq d 1 t :=
  mem_leaper (by decide) sq t

theorem mem_kingTable (sq t : Square) :
    mem (attackBb .king sq) t = true ↔ ∃ d ∈ kingDirs, Along sq d 1 t := by
  rw [attackBb, mem_leaper (by decide)]
  have h : ∀ d, d ∈ kingStepDirs ↔ d ∈ kingDirs := by
    intro d
    simp only [kingStepDirs, kingDirs, rookDirs, bishopDirs, List.cons_append, List.nil_append,
      List.mem_cons, List.not_mem_nil, or_false]
    tauto
  simp only [h]

theorem mem_pawnCaptBb (c : Color) (sq t : Square) :
    mem (pawnCaptBb c sq) t = true ↔ ∃ d ∈ pawnCaptDirs c, Along sq d 1 t := by
  apply mem_leaper
  cases c <;> decide

/-! ## The squares between two squares -/

/-- The `dir` of `init_ray_bb`, or `none` for its `continue`. -/
def rayDir (sq dst : Square) : Option Dir :=
  if rnk sq = rnk dst ∧ fil sq < fil dst then some (1, 0)
  else if rnk sq = rnk dst ∧ fil dst < fil sq then some (-1, 0)
  else if rnk sq < rnk dst ∧ fil sq = fil dst then some (0, 1)
  else if rnk dst < rnk sq ∧ fil sq = fil dst then some (0, -1)
  else if rnk sq < rnk dst ∧ fil sq < fil dst ∧ Bitboard.testbit (attackBb .bishop sq) dst then
    some (1, 1)
  else if rnk sq < rnk dst ∧ fil dst < fil sq ∧ Bitboard.testbit (attackBb .bishop sq) dst then
    some (-1, 1)
  else if rnk dst < rnk sq ∧ fil sq < fil dst ∧ Bitboard.testbit (attackBb .bishop sq) dst then
    some (1, -1)
  else if rnk dst < rnk sq ∧ fil dst < fil sq ∧ Bitboard.testbit (attackBb .bishop sq) dst then
    some (-1, -1)
  else none

/-- `while (s != t) { setbit(map0x88[s]); s += dir; }` -/
def rayLoop (d : Dir) (t : BitVec 32) : Nat → BitVec 32 → Bitboard → Bitboard
  | 0, _, bb => bb
  | fuel + 1, s, bb => if s = t then bb else rayLoop d t fuel (s + dir88 d) (setbit88 bb s)

/-- `ray_bb[from][to]` -/
def rayBb (sq dst : Square) : Bitboard :=
  match rayDir sq dst with
  | none => nullBitboard
  | some d => rayLoop d (to88 dst) 8 (to88 sq + dir88 d) nullBitboard

theorem rayDir_eq_some {sq dst : Square} {d : Dir} :
    rayDir sq dst = some d ↔ d ∈ kingDirs ∧ ∃ k, 0 < k ∧ Along sq d k dst := by
  have hb := mem_bishopTable sq dst
  have hx := grid_x sq
  have hy := grid_y sq
  have hx' := grid_x dst
  have hy' := grid_y dst
  constructor
  · intro h
    have diag : Bitboard.testbit (attackBb .bishop sq) dst = true →
        ∃ e ∈ bishopDirs, ∃ k, 0 < k ∧ Along sq e k dst := hb.mp
    unfold rayDir at h
    split at h
    · cases h
      exact ⟨by decide, fil dst - fil sq, by omega, by simp only [grid_x]; omega,
        by simp only [grid_y]; omega⟩
    split at h
    · cases h
      exact ⟨by decide, fil sq - fil dst, by omega, by simp only [grid_x]; omega,
        by simp only [grid_y]; omega⟩
    split at h
    · cases h
      exact ⟨by decide, rnk dst - rnk sq, by omega, by simp only [grid_x]; omega,
        by simp only [grid_y]; omega⟩
    split at h
    · cases h
      exact ⟨by decide, rnk sq - rnk dst, by omega, by simp only [grid_x]; omega,
        by simp only [grid_y]; omega⟩
    iterate 4
      split at h
      · rename_i hc
        cases h
        obtain ⟨e, he, k, hk, ha⟩ := diag hc.2.2
        have hex := ha.1
        have hey := ha.2
        rcases bishopDirs_cases he with rfl | rfl | rfl | rfl <;> simp only at hex hey <;>
          first | exact ⟨by decide, k, hk, ha⟩ | (exfalso; omega)
    cases h
  · rintro ⟨hd, k, hk, ha⟩
    have hex := ha.1
    have hey := ha.2
    have hdiag : d ∈ bishopDirs → Bitboard.testbit (attackBb .bishop sq) dst = true :=
      fun h => hb.mpr ⟨d, h, k, hk, ha⟩
    unfold rayDir
    rcases mem_kingDirs.mp hd with hd | hd
    · rcases rookDirs_cases hd with rfl | rfl | rfl | rfl <;> simp only at hex hey
      · rw [if_pos (by omega)]
      · rw [if_neg (by omega), if_pos (by omega)]
      · rw [if_neg (by omega), if_neg (by omega), if_pos (by omega)]
      · rw [if_neg (by omega), if_neg (by omega), if_neg (by omega), if_pos (by omega)]
    have ht := hdiag hd
    rcases bishopDirs_cases hd with rfl | rfl | rfl | rfl <;> simp only at hex hey
    · rw [if_neg (by omega), if_neg (by omega), if_neg (by omega), if_neg (by omega),
        if_pos ⟨by omega, by omega, ht⟩]
    · rw [if_neg (by omega), if_neg (by omega), if_neg (by omega), if_neg (by omega),
        if_neg (by omega), if_pos ⟨by omega, by omega, ht⟩]
    · rw [if_neg (by omega), if_neg (by omega), if_neg (by omega), if_neg (by omega),
        if_neg (by omega), if_neg (by omega), if_pos ⟨by omega, by omega, ht⟩]
    · rw [if_neg (by omega), if_neg (by omega), if_neg (by omega), if_neg (by omega),
        if_neg (by omega), if_neg (by omega), if_neg (by omega),
        if_pos ⟨by omega, by omega, ht⟩]

theorem map0x88_to88 : ∀ sq : Square, map0x88 (to88 sq) = some sq := by
  decide

theorem to88_injective {s t : Square} (h : to88 s = to88 t) : s = t := by
  have hs := map0x88_to88 s
  rw [h, map0x88_to88 t] at hs
  exact (Option.some.inj hs).symm

/-- The loop started `i` steps away from `sq` sets the squares from there up to `to`. -/
theorem mem_rayLoop {d : Dir} (hd : d ∈ kingDirs) {sq s dst t : Square} {i k : ℕ}
    (hs : Along sq d i s) (ht : Along sq d k dst) (hik : i ≤ k) (fuel : Nat) (hf : k ≤ i + fuel)
    (bb : Bitboard) :
    mem (rayLoop d (to88 dst) fuel (to88 s) bb) t = true ↔
      mem bb t = true ∨ ∃ j, i ≤ j ∧ j < k ∧ Along sq d j t := by
  induction fuel generalizing i s bb with
  | zero =>
    have hno : ¬ ∃ j, i ≤ j ∧ j < k ∧ Along sq d j t := by rintro ⟨j, h1, h2, _⟩; omega
    simp [rayLoop, hno]
  | succ fuel ih =>
    rcases Nat.eq_or_lt_of_le hik with rfl | hlt
    · have : s = dst := hs.unique ht
      have hno : ¬ ∃ j, i ≤ j ∧ j < i ∧ Along sq d j t := by rintro ⟨j, h1, h2, _⟩; omega
      subst this
      simp [rayLoop, hno]
    · have hne : to88 s ≠ to88 dst := by
        intro h
        have hst : Along s d (k - i) dst := hs.sub (by rwa [Nat.add_sub_cancel' hik])
        exact hst.ne hd (by omega) (to88_injective h)
      obtain ⟨u, hu⟩ := ht.exists_inner (j := i + 1) hlt
      have hsu : Along s d 1 u := hs.sub hu
      obtain ⟨b1, b2, b3, b4, _⟩ := unit_bounds hd
      obtain ⟨_, _, he⟩ := step88_some (step88 s ⟨by omega, by omega⟩ ⟨by omega, by omega⟩)
        (step_eq_some.mpr hsu)
      rw [rayLoop, if_neg hne, he, ih hu (by omega) (by omega), setbit88, map0x88_to88 s,
        mem_insert]
      simp only [Bool.or_eq_true, decide_eq_true_eq]
      constructor
      · rintro ((h | rfl) | ⟨j, h1, h2, h3⟩)
        · exact Or.inl h
        · exact Or.inr ⟨i, le_rfl, hlt, hs⟩
        · exact Or.inr ⟨j, by omega, h2, h3⟩
      · rintro (h | ⟨j, h1, h2, h3⟩)
        · exact Or.inl (Or.inl h)
        · rcases Nat.eq_or_lt_of_le h1 with rfl | hj
          · exact Or.inl (Or.inr (hs.unique h3))
          · exact Or.inr ⟨j, hj, h2, h3⟩

/-- **`ray_bb[from][to]` is the set of squares strictly between the two.** -/
@[simp] theorem mem_rayBb (sq dst t : Square) :
    mem (rayBb sq dst) t = true ↔ Between sq dst t := by
  unfold rayBb
  cases h : rayDir sq dst with
  | none =>
    simp only [mem_zero, Bool.false_eq_true, false_iff]
    rintro ⟨d, hd, i, j, h0, hij, _, hto⟩
    rw [rayDir_eq_some.mpr ⟨hd, j, by omega, hto⟩] at h
    cases h
  | some d =>
    obtain ⟨hd, k, hk, ha⟩ := rayDir_eq_some.mp h
    obtain ⟨u, hu⟩ := ha.exists_inner (j := 1) hk
    obtain ⟨b1, b2, b3, b4, _⟩ := unit_bounds hd
    obtain ⟨_, _, he⟩ := step88_some (step88 sq ⟨by omega, by omega⟩ ⟨by omega, by omega⟩)
      (step_eq_some.mpr hu)
    have hk8 := along_lt_eight hd ha
    simp only
    rw [he, mem_rayLoop hd hu ha hk 8 (by omega), ha.between_iff hd hk]
    simp only [mem_zero, Bool.false_eq_true, false_or]
    constructor
    · rintro ⟨j, h1, h2, h3⟩; exact ⟨j, h1, h2, h3⟩
    · rintro ⟨j, h1, h2, h3⟩; exact ⟨j, h1, h2, h3⟩

end HoiChess.Chess
