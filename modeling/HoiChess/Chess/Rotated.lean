import HoiChess.Chess.Bitboard

/-!
# Rotated bitboards

The occupancy is kept in four copies, one of them with the squares in the
usual order and three rotated, so that every rank, file and diagonal occupies
consecutive bits of one copy.  The attack tables `rot_atk_*` are indexed by
that line of bits; as in `Bitboard.lean` each table is the function computing
one entry.  All four entries are computed by the same loop (`lineAttack`)
and read off one line (`RotLine`); `mem_atkLine` is the proof they share,
`mem_rookAttacks` and `mem_bishopAttacks` the result: an attack lookup is a
walk along the rays.
-/

namespace HoiChess.Chess

open WordSet Grid

/-! ## The maps -/

/-- `map_l90`: `(((7-a)&0x07)<<3) | ((a&0x38)>>3)` -/
def mapL90 (a : Square) : Square :=
  let a : BitVec 32 := BitVec.ofNat 32 a.val
  Fin.ofNat 64 ((((7#32 - a) &&& 0x07#32) <<< 3) ||| ((a &&& 0x38#32) >>> 3)).toNat

/-- `inv_map_l90`: `((b&0x07)<<3) | (7-((b&0x38)>>3))` -/
def invMapL90 (b : Nat) : Square :=
  let b : BitVec 32 := BitVec.ofNat 32 b
  Fin.ofNat 64 (((b &&& 0x07#32) <<< 3) ||| (7#32 - ((b &&& 0x38#32) >>> 3))).toNat

/-- `shift_0`: `a&0x38` -/
def shift0 (a : Square) : Nat := (BitVec.ofNat 32 a.val &&& 0x38#32).toNat

/-- `shift_l90`: `((7-a)&0x07)<<3` -/
def shiftL90 (a : Square) : Nat := (((7#32 - BitVec.ofNat 32 a.val) &&& 0x07#32) <<< 3).toNat

/-- `_map_l45` -/
def mapL45Table : Vector Square 64 := #v[
   28, 21, 15, 10,  6,  3,  1,  0,
   36, 29, 22, 16, 11,  7,  4,  2,
   43, 37, 30, 23, 17, 12,  8,  5,
   49, 44, 38, 31, 24, 18, 13,  9,
   54, 50, 45, 39, 32, 25, 19, 14,
   58, 55, 51, 46, 40, 33, 26, 20,
   61, 59, 56, 52, 47, 41, 34, 27,
   63, 62, 60, 57, 53, 48, 42, 35]

/-- `_inv_map_l45` -/
def invMapL45Table : Vector Square 64 := #v[
    7,  6, 15,  5, 14, 23,  4, 13,
   22, 31,  3, 12, 21, 30, 39,  2,
   11, 20, 29, 38, 47,  1, 10, 19,
   28, 37, 46, 55,  0,  9, 18, 27,
   36, 45, 54, 63,  8, 17, 26, 35,
   44, 53, 62, 16, 25, 34, 43, 52,
   61, 24, 33, 42, 51, 60, 32, 41,
   50, 59, 40, 49, 58, 48, 57, 56]

/-- `_shift_l45` -/
def shiftL45Table : Vector Nat 64 := #v[
   28, 21, 15, 10,  6,  3,  1,  0,
   36, 28, 21, 15, 10,  6,  3,  1,
   43, 36, 28, 21, 15, 10,  6,  3,
   49, 43, 36, 28, 21, 15, 10,  6,
   54, 49, 43, 36, 28, 21, 15, 10,
   58, 54, 49, 43, 36, 28, 21, 15,
   61, 58, 54, 49, 43, 36, 28, 21,
   63, 61, 58, 54, 49, 43, 36, 28]

/-- `_diaglen_l45` -/
def diaglenL45Table : Vector Nat 64 := #v[
    8,  7,  6,  5,  4,  3,  2,  1,
    7,  8,  7,  6,  5,  4,  3,  2,
    6,  7,  8,  7,  6,  5,  4,  3,
    5,  6,  7,  8,  7,  6,  5,  4,
    4,  5,  6,  7,  8,  7,  6,  5,
    3,  4,  5,  6,  7,  8,  7,  6,
    2,  3,  4,  5,  6,  7,  8,  7,
    1,  2,  3,  4,  5,  6,  7,  8]

/-- `_diagmask_l45` -/
def diagmaskL45Table : Vector Bitboard 64 := #v[
   0xff, 0x7f, 0x3f, 0x1f, 0x0f, 0x07, 0x03, 0x01,
   0x7f, 0xff, 0x7f, 0x3f, 0x1f, 0x0f, 0x07, 0x03,
   0x3f, 0x7f, 0xff, 0x7f, 0x3f, 0x1f, 0x0f, 0x07,
   0x1f, 0x3f, 0x7f, 0xff, 0x7f, 0x3f, 0x1f, 0x0f,
   0x0f, 0x1f, 0x3f, 0x7f, 0xff, 0x7f, 0x3f, 0x1f,
   0x07, 0x0f, 0x1f, 0x3f, 0x7f, 0xff, 0x7f, 0x3f,
   0x03, 0x07, 0x0f, 0x1f, 0x3f, 0x7f, 0xff, 0x7f,
   0x01, 0x03, 0x07, 0x0f, 0x1f, 0x3f, 0x7f, 0xff]

/-- `_map_r45` -/
def mapR45Table : Vector Square 64 := #v[
    0,  2,  5,  9, 14, 20, 27, 35,
    1,  4,  8, 13, 19, 26, 34, 42,
    3,  7, 12, 18, 25, 33, 41, 48,
    6, 11, 17, 24, 32, 40, 47, 53,
   10, 16, 23, 31, 39, 46, 52, 57,
   15, 22, 30, 38, 45, 51, 56, 60,
   21, 29, 37, 44, 50, 55, 59, 62,
   28, 36, 43, 49, 54, 58, 61, 63]

/-- `_inv_map_r45` -/
def invMapR45Table : Vector Square 64 := #v[
    0,  8,  1, 16,  9,  2, 24, 17,
   10,  3, 32, 25, 18, 11,  4, 40,
   33, 26, 19, 12,  5, 48, 41, 34,
   27, 20, 13,  6, 56, 49, 42, 35,
   28, 21, 14,  7, 57, 50, 43, 36,
   29, 22, 15, 58, 51, 44, 37, 30,
   23, 59, 52, 45, 38, 31, 60, 53,
   46, 39, 61, 54, 47, 62, 55, 63]

/-- `_shift_r45` -/
def shiftR45Table : Vector Nat 64 := #v[
    0,  1,  3,  6, 10, 15, 21, 28,
    1,  3,  6, 10, 15, 21, 28, 36,
    3,  6, 10, 15, 21, 28, 36, 43,
    6, 10, 15, 21, 28, 36, 43, 49,
   10, 15, 21, 28, 36, 43, 49, 54,
   15, 21, 28, 36, 43, 49, 54, 58,
   21, 28, 36, 43, 49, 54, 58, 61,
   28, 36, 43, 49, 54, 58, 61, 63]

/-- `_diaglen_r45` -/
def diaglenR45Table : Vector Nat 64 := #v[
    1,  2,  3,  4,  5,  6,  7,  8,
    2,  3,  4,  5,  6,  7,  8,  7,
    3,  4,  5,  6,  7,  8,  7,  6,
    4,  5,  6,  7,  8,  7,  6,  5,
    5,  6,  7,  8,  7,  6,  5,  4,
    6,  7,  8,  7,  6,  5,  4,  3,
    7,  8,  7,  6,  5,  4,  3,  2,
    8,  7,  6,  5,  4,  3,  2,  1]

/-- `_diagmask_r45` -/
def diagmaskR45Table : Vector Bitboard 64 := #v[
   0x01, 0x03, 0x07, 0x0f, 0x1f, 0x3f, 0x7f, 0xff,
   0x03, 0x07, 0x0f, 0x1f, 0x3f, 0x7f, 0xff, 0x7f,
   0x07, 0x0f, 0x1f, 0x3f, 0x7f, 0xff, 0x7f, 0x3f,
   0x0f, 0x1f, 0x3f, 0x7f, 0xff, 0x7f, 0x3f, 0x1f,
   0x1f, 0x3f, 0x7f, 0xff, 0x7f, 0x3f, 0x1f, 0x0f,
   0x3f, 0x7f, 0xff, 0x7f, 0x3f, 0x1f, 0x0f, 0x07,
   0x7f, 0xff, 0x7f, 0x3f, 0x1f, 0x0f, 0x07, 0x03,
   0xff, 0x7f, 0x3f, 0x1f, 0x0f, 0x07, 0x03, 0x01]

def mapL45 (a : Square) : Square := mapL45Table.get a
def mapR45 (a : Square) : Square := mapR45Table.get a
def invMapL45 (b : Nat) : Square := invMapL45Table.get (Fin.ofNat 64 b)
def invMapR45 (b : Nat) : Square := invMapR45Table.get (Fin.ofNat 64 b)

/-! ## Attack tables -/

/-- The inner loop of `init_rot_atk`: the bits `t` of a line of length `len`
that are seen from its bit `f` over the occupancy `occ`, each translated to
the square `tgt t`. -/
def lineAttack (f len : Nat) (tgt : Nat → Square) (occ : Bitboard) : Bitboard :=
  (List.range len).foldl
    (fun tmp t =>
      if Bitboard.any (occ &&& rayBb (Fin.ofNat 64 f) (Fin.ofNat 64 t)) || f == t then tmp
      else Bitboard.setbit tmp (tgt t))
    nullBitboard

def rotAtk0 (sq : Square) (occ : Bitboard) : Bitboard :=
  lineAttack (sq.val % 8) 8 (fun t => Fin.ofNat 64 t) occ <<< shift0 sq

def rotAtkL90 (sq : Square) (occ : Bitboard) : Bitboard :=
  lineAttack ((mapL90 sq).val % 8) 8 (fun t => invMapL90 (shiftL90 sq + t)) occ

def rotAtkL45 (sq : Square) (occ : Bitboard) : Bitboard :=
  lineAttack ((mapL45 sq).val - shiftL45Table.get sq) (diaglenL45Table.get sq)
    (fun t => invMapL45 (shiftL45Table.get sq + t)) occ

def rotAtkR45 (sq : Square) (occ : Bitboard) : Bitboard :=
  lineAttack ((mapR45 sq).val - shiftR45Table.get sq) (diaglenR45Table.get sq)
    (fun t => invMapR45 (shiftR45Table.get sq + t)) occ

def atk0 (bits : Bitboard) (sq : Square) : Bitboard :=
  rotAtk0 sq ((bits >>> shift0 sq) &&& 0xff#64)

def atkL90 (bits : Bitboard) (sq : Square) : Bitboard :=
  rotAtkL90 sq ((bits >>> shiftL90 sq) &&& 0xff#64)

def atkL45 (bits : Bitboard) (sq : Square) : Bitboard :=
  rotAtkL45 sq ((bits >>> shiftL45Table.get sq) &&& diagmaskL45Table.get sq)

def atkR45 (bits : Bitboard) (sq : Square) : Bitboard :=
  rotAtkR45 sq ((bits >>> shiftR45Table.get sq) &&& diagmaskR45Table.get sq)

/-! ## One line of a rotated board -/

theorem rayBb_rank1 : ∀ f t : Fin 8,
    rayBb (Fin.ofNat 64 f.val) (Fin.ofNat 64 t.val) =
      ofList ((List.finRange 64).filter
        (fun v => (f.val < v.val ∧ v.val < t.val) ∨ (t.val < v.val ∧ v.val < f.val))) := by
  decide

/-- Bit `v` lies strictly between the bits `f` and `t`. -/
def Inner (f t v : Nat) : Prop := (f < v ∧ v < t) ∨ (t < v ∧ v < f)

theorem any_and_ray (occ : Bitboard) {f t : Nat} (hf : f < 8) (ht : t < 8) :
    Bitboard.any (occ &&& rayBb (Fin.ofNat 64 f) (Fin.ofNat 64 t)) = false ↔
      ∀ v : Square, Inner f t v.val → mem occ v = false := by
  have hr := rayBb_rank1 ⟨f, hf⟩ ⟨t, ht⟩
  simp only at hr
  rw [hr, Bitboard.any, bne_eq_false_iff_eq, eq_zero_iff]
  simp only [mem_and, mem_ofList, List.mem_filter, List.mem_finRange, true_and,
    decide_eq_true_eq, Bool.and_eq_false_imp, decide_eq_false_iff_not, Inner]
  constructor
  · intro h v hv
    cases ho : mem occ v with
    | false => rfl
    | true => exact absurd hv (h v ho)
  · intro h v ho hv
    rw [h v hv] at ho
    cases ho

theorem mem_lineAttack_foldl (f : Nat) (tgt : Nat → Square) (occ : Bitboard) (l : List Nat)
    (tmp : Bitboard) (sq : Square) :
    mem (l.foldl (fun tmp t =>
      if Bitboard.any (occ &&& rayBb (Fin.ofNat 64 f) (Fin.ofNat 64 t)) || f == t then tmp
      else Bitboard.setbit tmp (tgt t)) tmp) sq = true ↔
      mem tmp sq = true ∨ ∃ t ∈ l,
        Bitboard.any (occ &&& rayBb (Fin.ofNat 64 f) (Fin.ofNat 64 t)) = false ∧ f ≠ t ∧
          tgt t = sq := by
  induction l generalizing tmp with
  | nil => simp
  | cons t l ih =>
    rw [List.foldl_cons, ih]
    simp only [List.mem_cons, exists_eq_or_imp]
    by_cases h : Bitboard.any (occ &&& rayBb (Fin.ofNat 64 f) (Fin.ofNat 64 t)) = true ∨ f = t
    · have hb : (Bitboard.any (occ &&& rayBb (Fin.ofNat 64 f) (Fin.ofNat 64 t)) || f == t) =
          true := by simpa using h
      have hno : ¬ (Bitboard.any (occ &&& rayBb (Fin.ofNat 64 f) (Fin.ofNat 64 t)) = false ∧
          f ≠ t ∧ tgt t = sq) := by
        rintro ⟨h1, h2, _⟩
        rcases h with h | h
        · rw [h] at h1; cases h1
        · exact h2 h
      rw [if_pos hb]
      simp only [hno, false_or]
    · rw [not_or, Bool.not_eq_true] at h
      have hb : (Bitboard.any (occ &&& rayBb (Fin.ofNat 64 f) (Fin.ofNat 64 t)) || f == t) =
          false := by simpa using h
      rw [hb, if_neg (by decide), mem_insert]
      simp only [h, Bool.or_eq_true, decide_eq_true_eq, true_and, or_assoc, ne_eq,
        not_false_eq_true]

theorem mem_lineAttack {f len : Nat} (hf : f < 8) (hlen : len ≤ 8) (tgt : Nat → Square)
    (occ : Bitboard) (sq : Square) :
    mem (lineAttack f len tgt occ) sq = true ↔
      ∃ t, t < len ∧ f ≠ t ∧ tgt t = sq ∧ ∀ v : Square, Inner f t v.val → mem occ v = false := by
  rw [lineAttack, mem_lineAttack_foldl]
  simp only [mem_zero, Bool.false_eq_true, false_or, List.mem_range]
  constructor
  · rintro ⟨t, ht, h1, h2, h3⟩
    exact ⟨t, ht, h2, h3, (any_and_ray occ hf (by omega)).mp h1⟩
  · rintro ⟨t, ht, h2, h3, h4⟩
    exact ⟨t, ht, (any_and_ray occ hf (by omega)).mpr h4, h2, h3⟩

/-- How the line of `sq` in direction `dir` is laid out in a rotated board:
`sq` is bit `pos`, the line has `len` bits starting at `shift`, its bit `t`
is the square `tgt t`, and `map` is where a square goes. -/
structure RotLine where
  dir : Dir
  pos : Square → Nat
  len : Square → Nat
  shift : Square → Nat
  mask : Square → Bitboard
  tgt : Square → Nat → Square
  map : Square → Square

/-- The layout is the geometric line through `sq`, from edge to edge. -/
structure RotLine.Sound (L : RotLine) (sq : Square) : Prop where
  pos_lt : L.pos sq < L.len sq
  len_le : L.len sq ≤ 8
  shift_le : L.shift sq + L.len sq ≤ 64
  mask_eq : L.mask sq = ofList ((List.finRange 64).filter (fun v => v.val < L.len sq))
  tgt_x : ∀ t : Fin 8, t.val < L.len sq →
    x (L.tgt sq t.val) = x sq + ((t.val : ℤ) - L.pos sq) * L.dir.1
  tgt_y : ∀ t : Fin 8, t.val < L.len sq →
    y (L.tgt sq t.val) = y sq + ((t.val : ℤ) - L.pos sq) * L.dir.2
  map_tgt : ∀ t : Fin 8, t.val < L.len sq →
    (L.map (L.tgt sq t.val)).val = L.shift sq + t.val
  edge_high : cell (S := Square) (x sq + ((L.len sq : ℤ) - L.pos sq) * L.dir.1)
    (y sq + ((L.len sq : ℤ) - L.pos sq) * L.dir.2) = none
  edge_low : cell (S := Square) (x sq - ((L.pos sq : ℤ) + 1) * L.dir.1)
    (y sq - ((L.pos sq : ℤ) + 1) * L.dir.2) = none

instance (L : RotLine) (sq : Square) : Decidable (L.Sound sq) :=
  decidable_of_iff
    (L.pos sq < L.len sq ∧ L.len sq ≤ 8 ∧ L.shift sq + L.len sq ≤ 64 ∧
      L.mask sq = ofList ((List.finRange 64).filter (fun v => v.val < L.len sq)) ∧
      (∀ t : Fin 8, t.val < L.len sq →
        x (L.tgt sq t.val) = x sq + ((t.val : ℤ) - L.pos sq) * L.dir.1) ∧
      (∀ t : Fin 8, t.val < L.len sq →
        y (L.tgt sq t.val) = y sq + ((t.val : ℤ) - L.pos sq) * L.dir.2) ∧
      (∀ t : Fin 8, t.val < L.len sq →
        (L.map (L.tgt sq t.val)).val = L.shift sq + t.val) ∧
      cell (S := Square) (x sq + ((L.len sq : ℤ) - L.pos sq) * L.dir.1)
        (y sq + ((L.len sq : ℤ) - L.pos sq) * L.dir.2) = none ∧
      cell (S := Square) (x sq - ((L.pos sq : ℤ) + 1) * L.dir.1)
        (y sq - ((L.pos sq : ℤ) + 1) * L.dir.2) = none)
    ⟨fun ⟨h1, h2, h3, h4, h5, h6, h7, h8, h9⟩ => ⟨h1, h2, h3, h4, h5, h6, h7, h8, h9⟩,
      fun ⟨h1, h2, h3, h4, h5, h6, h7, h8, h9⟩ => ⟨h1, h2, h3, h4, h5, h6, h7, h8, h9⟩⟩

def line0 : RotLine where
  dir := (1, 0)
  pos sq := sq.val % 8
  len _ := 8
  shift := shift0
  mask _ := 0xff#64
  tgt sq t := Fin.ofNat 64 (shift0 sq + t)
  map sq := sq

def lineL90 : RotLine where
  dir := (0, 1)
  pos sq := (mapL90 sq).val % 8
  len _ := 8
  shift := shiftL90
  mask _ := 0xff#64
  tgt sq t := invMapL90 (shiftL90 sq + t)
  map := mapL90

def lineL45 : RotLine where
  dir := (1, 1)
  pos sq := (mapL45 sq).val - shiftL45Table.get sq
  len sq := diaglenL45Table.get sq
  shift sq := shiftL45Table.get sq
  mask sq := diagmaskL45Table.get sq
  tgt sq t := invMapL45 (shiftL45Table.get sq + t)
  map := mapL45

def lineR45 : RotLine where
  dir := (1, -1)
  pos sq := (mapR45 sq).val - shiftR45Table.get sq
  len sq := diaglenR45Table.get sq
  shift sq := shiftR45Table.get sq
  mask sq := diagmaskR45Table.get sq
  tgt sq t := invMapR45 (shiftR45Table.get sq + t)
  map := mapR45

theorem rotLines_sound : ∀ sq, line0.Sound sq ∧ lineL90.Sound sq ∧ lineL45.Sound sq ∧
    lineR45.Sound sq := by
  decide +kernel

theorem line0_sound (sq : Square) : line0.Sound sq := (rotLines_sound sq).1
theorem lineL90_sound (sq : Square) : lineL90.Sound sq := (rotLines_sound sq).2.1
theorem lineL45_sound (sq : Square) : lineL45.Sound sq := (rotLines_sound sq).2.2.1
theorem lineR45_sound (sq : Square) : lineR45.Sound sq := (rotLines_sound sq).2.2.2

/-! ## A lookup is a walk -/

/-- The word of line bits cut out of a rotated copy of `occ`. -/
theorem mem_lineBits {L : RotLine} {sq : Square} (hL : L.Sound sq) {bits : Bitboard}
    {occ : Square → Bool} (himg : ∀ s, mem bits (L.map s) = occ s) {t : Nat}
    (ht : t < L.len sq) (v : Square) (hv : v.val = t) :
    mem ((bits >>> L.shift sq) &&& L.mask sq) v = occ (L.tgt sq t) := by
  have h8 := hL.len_le
  have hs := hL.shift_le
  have hm : mem (L.mask sq) v = true := by
    rw [hL.mask_eq, mem_ofList]
    simp [hv, ht]
  rw [mem_and, hm, Bool.and_true, ← himg, mem_eq_getLsbD, mem_eq_getLsbD,
    BitVec.getLsbD_ushiftRight, hL.map_tgt ⟨t, by omega⟩ ht, hv]

theorem RotLine.Sound.along_high {L : RotLine} {sq : Square} (hL : L.Sound sq) {k : Nat}
    (hk : L.pos sq + k < L.len sq) : Along sq L.dir k (L.tgt sq (L.pos sq + k)) := by
  have h8 := hL.len_le
  have hx := hL.tgt_x ⟨L.pos sq + k, by omega⟩ hk
  have hy := hL.tgt_y ⟨L.pos sq + k, by omega⟩ hk
  have e : ((L.pos sq + k : Nat) : ℤ) - L.pos sq = k := by push_cast; omega
  rw [e] at hx hy
  exact ⟨hx, hy⟩

theorem RotLine.Sound.along_low {L : RotLine} {sq : Square} (hL : L.Sound sq) {k : Nat}
    (hk : k ≤ L.pos sq) : Along sq (-L.dir) k (L.tgt sq (L.pos sq - k)) := by
  have h8 := hL.len_le
  have hp := hL.pos_lt
  have hx := hL.tgt_x ⟨L.pos sq - k, by omega⟩ (by simp only; omega)
  have hy := hL.tgt_y ⟨L.pos sq - k, by omega⟩ (by simp only; omega)
  have e : ((L.pos sq - k : Nat) : ℤ) - L.pos sq = -(k : ℤ) := by omega
  rw [e] at hx hy
  refine ⟨?_, ?_⟩
  · rw [hx, Prod.fst_neg]; ring
  · rw [hy, Prod.snd_neg]; ring

theorem RotLine.Sound.high_bound {L : RotLine} {sq t : Square} (hL : L.Sound sq) {k : Nat}
    (h : Along sq L.dir k t) : L.pos sq + k < L.len sq := by
  by_contra hk
  have hp := hL.pos_lt
  obtain ⟨u, hu⟩ := h.exists_inner (j := L.len sq - L.pos sq) (by omega)
  have e : ((L.len sq - L.pos sq : Nat) : ℤ) = (L.len sq : ℤ) - L.pos sq := by omega
  have hc := (cell_eq_some _ _ u).mpr hu
  rw [e, hL.edge_high] at hc
  cases hc

theorem RotLine.Sound.low_bound {L : RotLine} {sq t : Square} (hL : L.Sound sq) {k : Nat}
    (h : Along sq (-L.dir) k t) : k ≤ L.pos sq := by
  by_contra hk
  obtain ⟨u, hx, hy⟩ := h.exists_inner (j := L.pos sq + 1) (by omega)
  have hx' : x u = x sq - ((L.pos sq : ℤ) + 1) * L.dir.1 := by
    rw [hx, Prod.fst_neg]; push_cast; ring
  have hy' : y u = y sq - ((L.pos sq : ℤ) + 1) * L.dir.2 := by
    rw [hy, Prod.snd_neg]; push_cast; ring
  have hc := (cell_eq_some _ _ u).mpr ⟨hx', hy'⟩
  rw [hL.edge_low] at hc
  cases hc

/-- **A table lookup sees what a walk in both directions of the line reaches.** -/
theorem mem_atkLine {L : RotLine} {sq : Square} (hL : L.Sound sq) {bits : Bitboard}
    {occ : Square → Bool} (himg : ∀ s, mem bits (L.map s) = occ s) (t : Square) :
    mem (lineAttack (L.pos sq) (L.len sq) (L.tgt sq) ((bits >>> L.shift sq) &&& L.mask sq)) t =
        true ↔
      (∃ k, Reaches occ sq L.dir k t) ∨ ∃ k, Reaches occ sq (-L.dir) k t := by
  have h8 := hL.len_le
  have hp := hL.pos_lt
  rw [mem_lineAttack (by omega) h8]
  constructor
  · rintro ⟨u, hu, hne, rfl, hclear⟩
    rcases Nat.lt_or_gt_of_ne hne with hlt | hgt
    · left
      obtain ⟨k, rfl⟩ := Nat.exists_eq_add_of_lt hlt
      refine ⟨k + 1, by omega, hL.along_high hu, ?_⟩
      intro j w h0 hj hw
      have hb : L.pos sq + j < L.len sq := by omega
      rw [hw.unique (hL.along_high hb),
        ← mem_lineBits hL himg hb ⟨L.pos sq + j, by omega⟩ rfl]
      have hin : Inner (L.pos sq) (L.pos sq + k + 1) (L.pos sq + j) :=
        Or.inl ⟨by omega, by omega⟩
      exact hclear ⟨L.pos sq + j, by omega⟩ hin
    · right
      have hk := hL.along_low (k := L.pos sq - u) (by omega)
      rw [show L.pos sq - (L.pos sq - u) = u by omega] at hk
      refine ⟨L.pos sq - u, by omega, hk, ?_⟩
      intro j w h0 hj hw
      rw [hw.unique (hL.along_low (by omega)),
        ← mem_lineBits hL himg (t := L.pos sq - j) (by omega) ⟨L.pos sq - j, by omega⟩ rfl]
      have hin : Inner (L.pos sq) u (L.pos sq - j) := Or.inr ⟨by omega, by omega⟩
      exact hclear ⟨L.pos sq - j, by omega⟩ hin
  · rintro (⟨k, h0, hk, hclear⟩ | ⟨k, h0, hk, hclear⟩)
    · have hb := hL.high_bound hk
      refine ⟨L.pos sq + k, hb, by omega, (hL.along_high hb).unique hk, ?_⟩
      rintro v (⟨h1, h2⟩ | ⟨h1, h2⟩)
      · obtain ⟨j, hj⟩ := Nat.exists_eq_add_of_lt h1
        rw [mem_lineBits hL himg (t := L.pos sq + (j + 1)) (by omega) v (by omega)]
        exact hclear (j + 1) _ (by omega) (by omega) (hL.along_high (by omega))
      · omega
    · have hb := hL.low_bound hk
      refine ⟨L.pos sq - k, by omega, by omega, (hL.along_low hb).unique hk, ?_⟩
      rintro v (⟨h1, h2⟩ | ⟨h1, h2⟩)
      · omega
      · rw [mem_lineBits hL himg (t := L.pos sq - (L.pos sq - v.val)) (by omega) v (by omega)]
        exact hclear (L.pos sq - v.val) _ (by omega) (by omega) (hL.along_low (by omega))

/-- The shift of `rot_atk_0` moves the line to its rank. -/
theorem mem_rotAtk0 (sq : Square) (occ : Bitboard) (t : Square) :
    mem (rotAtk0 sq occ) t =
      mem (lineAttack (line0.pos sq) (line0.len sq) (line0.tgt sq) occ) t := by
  have h0 := (line0_sound sq).shift_le
  have hpos : sq.val % 8 < 8 := Nat.mod_lt _ (by decide)
  have hlow : ∀ u : Square, mem (lineAttack (sq.val % 8) 8 (fun t => Fin.ofNat 64 t) occ) u =
      true ↔ u.val < 8 ∧ sq.val % 8 ≠ u.val ∧
        ∀ v : Square, Inner (sq.val % 8) u.val v.val → mem occ v = false := by
    intro u
    rw [mem_lineAttack hpos le_rfl]
    constructor
    · rintro ⟨k, h1, h2, rfl, h3⟩
      have : (Fin.ofNat 64 k).val = k := Nat.mod_eq_of_lt (by omega)
      rw [this]
      exact ⟨h1, h2, h3⟩
    · rintro ⟨h1, h2, h3⟩
      exact ⟨u.val, h1, h2, Fin.ext (Nat.mod_eq_of_lt (by omega)), h3⟩
  have hhigh : mem (lineAttack (line0.pos sq) (line0.len sq) (line0.tgt sq) occ) t = true ↔
      ∃ k, k < 8 ∧ sq.val % 8 ≠ k ∧ shift0 sq + k = t.val ∧
        ∀ v : Square, Inner (sq.val % 8) k v.val → mem occ v = false := by
    change mem (lineAttack (sq.val % 8) 8 (fun t => Fin.ofNat 64 (shift0 sq + t)) occ) t = true ↔ _
    rw [mem_lineAttack hpos le_rfl]
    have hv : ∀ k, k < 8 → (Fin.ofNat 64 (shift0 sq + k) = t ↔ shift0 sq + k = t.val) := by
      intro k hk
      have : (Fin.ofNat 64 (shift0 sq + k)).val = shift0 sq + k :=
        Nat.mod_eq_of_lt (by change shift0 sq + 8 ≤ 64 at h0; omega)
      rw [Fin.ext_iff, this]
    constructor
    · rintro ⟨k, h1, h2, h3, h4⟩; exact ⟨k, h1, h2, (hv k h1).mp h3, h4⟩
    · rintro ⟨k, h1, h2, h3, h4⟩; exact ⟨k, h1, h2, (hv k h1).mpr h3, h4⟩
  have hsh : mem (rotAtk0 sq occ) t = true ↔ ∃ u : Square, shift0 sq + u.val = t.val ∧
      mem (lineAttack (sq.val % 8) 8 (fun t => Fin.ofNat 64 t) occ) u = true := by
    rw [rotAtk0, mem_eq_getLsbD, BitVec.getLsbD_shiftLeft]
    simp only [Bool.and_eq_true, decide_eq_true_eq, Bool.not_eq_true', decide_eq_false_iff_not]
    constructor
    · rintro ⟨⟨_, h1⟩, h2⟩
      refine ⟨⟨t.val - shift0 sq, by omega⟩, by simp only; omega, ?_⟩
      rw [mem_eq_getLsbD]; exact h2
    · rintro ⟨u, h1, h2⟩
      rw [mem_eq_getLsbD] at h2
      refine ⟨⟨t.isLt, by omega⟩, ?_⟩
      rw [← h1, Nat.add_sub_cancel_left]; exact h2
  rw [Bool.eq_iff_iff, hsh, hhigh]
  constructor
  · rintro ⟨u, h1, h2⟩
    obtain ⟨h3, h4, h5⟩ := (hlow u).mp h2
    exact ⟨u.val, h3, h4, h1, h5⟩
  · rintro ⟨k, h1, h2, h3, h4⟩
    exact ⟨⟨k, by omega⟩, h3, (hlow ⟨k, by omega⟩).mpr ⟨h1, h2, h4⟩⟩

/-- The four copies hold the same occupancy. -/
structure Rotations (occ : Square → Bool) (o l90 l45 r45 : Bitboard) : Prop where
  occ0 : ∀ s, mem o s = occ s
  occL90 : ∀ s, mem l90 (mapL90 s) = occ s
  occL45 : ∀ s, mem l45 (mapL45 s) = occ s
  occR45 : ∀ s, mem r45 (mapR45 s) = occ s

theorem slides_cons {d : Dir} {dirs : List Dir} {occ : Square → Bool} {s t : Square} :
    Slides (d :: dirs) occ s t ↔ (∃ k, Reaches occ s d k t) ∨ Slides dirs occ s t := by
  simp [Slides]

theorem slides_nil {occ : Square → Bool} {s t : Square} : ¬ Slides [] occ s t := by
  simp [Slides]

/-- **Rook lookups walk along rank and file.** -/
theorem mem_rookLookup {occ : Square → Bool} {o l90 l45 r45 : Bitboard}
    (h : Rotations occ o l90 l45 r45) (sq t : Square) :
    mem (atk0 o sq ||| atkL90 l90 sq) t = true ↔ Slides rookDirs occ sq t := by
  have h1 := mem_atkLine (line0_sound sq) h.occ0 t
  have h2 := mem_atkLine (lineL90_sound sq) h.occL90 t
  rw [mem_or, Bool.or_eq_true, atk0, mem_rotAtk0]
  change mem (lineAttack _ _ _ ((o >>> line0.shift sq) &&& line0.mask sq)) t = true ∨
    mem (lineAttack (lineL90.pos sq) (lineL90.len sq) (lineL90.tgt sq)
      ((l90 >>> lineL90.shift sq) &&& lineL90.mask sq)) t = true ↔ _
  rw [h1, h2, rookDirs]
  simp only [slides_cons, slides_nil, or_false, or_assoc]
  rfl

/-- **Bishop lookups walk along the diagonals.** -/
theorem mem_bishopLookup {occ : Square → Bool} {o l90 l45 r45 : Bitboard}
    (h : Rotations occ o l90 l45 r45) (sq t : Square) :
    mem (atkL45 l45 sq ||| atkR45 r45 sq) t = true ↔ Slides bishopDirs occ sq t := by
  have h1 := mem_atkLine (lineL45_sound sq) h.occL45 t
  have h2 := mem_atkLine (lineR45_sound sq) h.occR45 t
  rw [mem_or, Bool.or_eq_true]
  change mem (lineAttack (lineL45.pos sq) (lineL45.len sq) (lineL45.tgt sq)
      ((l45 >>> lineL45.shift sq) &&& lineL45.mask sq)) t = true ∨
    mem (lineAttack (lineR45.pos sq) (lineR45.len sq) (lineR45.tgt sq)
      ((r45 >>> lineR45.shift sq) &&& lineR45.mask sq)) t = true ↔ _
  rw [h1, h2, bishopDirs]
  simp only [slides_cons, slides_nil, or_false, lineL45, lineR45, Prod.neg_mk, neg_neg]
  constructor
  · rintro ((h | h) | (h | h))
    · exact Or.inl h
    · exact Or.inr (Or.inr (Or.inr h))
    · exact Or.inr (Or.inr (Or.inl h))
    · exact Or.inr (Or.inl h)
  · rintro (h | h | h | h)
    · exact Or.inl (Or.inl h)
    · exact Or.inr (Or.inr h)
    · exact Or.inr (Or.inl h)
    · exact Or.inl (Or.inr h)

end HoiChess.Chess
