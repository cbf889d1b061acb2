import Mathlib.Data.Fintype.Card
import HoiChess.Lib.WordParts
import HoiChess.Chess.Bitboard

/-!
# Bit scans

`lsb()`, `msb()` and `popcnt()` look a word up in tables of 65536 entries, 16 bits at a time, or
leave it to the compiler.  `Lut.lsb_eq`, `Lut.msb_eq` and `Lut.popcnt_eq` say what the tables give for
every word, with no look outside them, and `visit_eq` that the loop with `firstbit()` and `clearbit()`
comes to its end with each set bit visited once.
-/

namespace HoiChess.Chess

open WordSet

/-- The number of a bit as an `int`, -1 if there is none. -/
def scanResult {w : Nat} : Option (Fin w) → Int
  | none => -1
  | some i => i.val

namespace Lut

/-! ## The tables -/

/-- `lsb_lut[i]`: up to the first `j` with `i & (1<<j)` -/
def lsbLut (i : BitVec 16) : BitVec 8 :=
  match (List.finRange 16).find? (mem i) with
  | none => -1
  | some j => BitVec.ofNat 8 j.val

/-- `msb_lut[i]`: down to the first `j` with `i & (1<<j)` -/
def msbLut (i : BitVec 16) : BitVec 8 :=
  match (List.finRange 16).reverse.find? (mem i) with
  | none => -1
  | some j => BitVec.ofNat 8 j.val

/-- `popcnt_lut[i]`: one more for each `j` with `i & (1<<j)` -/
def popcntLut (i : BitVec 16) : BitVec 8 :=
  (List.finRange 16).foldl (fun n j => if mem i j then n + 1 else n) 0

/-- The `int8_t` at an index of a table, as an `int`; there are 65536 of them. -/
def look (lut : BitVec 16 → BitVec 8) (index : BitVec 64) : Option Int :=
  if index.toNat < 65536 then some (lut (index.setWidth 16)).toInt else none

/-! ## The cascades -/

def lsb (bits : BitVec 64) : Option Int :=
  if bits &&& 0xffff#64 != 0 then look lsbLut (bits &&& 0xffff#64)
  else if (bits >>> 16) &&& 0xffff#64 != 0 then (look lsbLut ((bits >>> 16) &&& 0xffff#64)).map (· + 16)
  else if (bits >>> 32) &&& 0xffff#64 != 0 then (look lsbLut ((bits >>> 32) &&& 0xffff#64)).map (· + 32)
  else if (bits >>> 48) &&& 0xffff#64 != 0 then (look lsbLut ((bits >>> 48) &&& 0xffff#64)).map (· + 48)
  else some (-1)

def msb (bits : BitVec 64) : Option Int :=
  if bits >>> 48 != 0 then (look msbLut (bits >>> 48)).map (· + 48)
  else if bits >>> 32 != 0 then (look msbLut (bits >>> 32)).map (· + 32)
  else if bits >>> 16 != 0 then (look msbLut (bits >>> 16)).map (· + 16)
  else look msbLut bits

def popcnt (bits : BitVec 64) : Option Int := do
  let a ← look popcntLut (bits &&& 0xffff#64)
  let b ← look popcntLut ((bits >>> 16) &&& 0xffff#64)
  let c ← look popcntLut ((bits >>> 32) &&& 0xffff#64)
  let d ← look popcntLut ((bits >>> 48) &&& 0xffff#64)
  return a + b + c + d

/-! ## What is in the tables -/

theorem toInt_ofNat8 : ∀ n : Fin 17, (BitVec.ofNat 8 n.val).toInt = n.val := by decide

theorem lsbLut_eq (i : BitVec 16) : (lsbLut i).toInt = scanResult (lowest i) := by
  show (match lowest i with
    | none => -1
    | some j => BitVec.ofNat 8 j.val : BitVec 8).toInt = _
  cases lowest i with
  | none => rfl
  | some j => exact toInt_ofNat8 j.castSucc

theorem msbLut_eq (i : BitVec 16) : (msbLut i).toInt = scanResult (highest i) := by
  show (match highest i with
    | none => -1
    | some j => BitVec.ofNat 8 j.val : BitVec 8).toInt = _
  cases highest i with
  | none => rfl
  | some j => exact toInt_ofNat8 j.castSucc

theorem popcntLut_eq (i : BitVec 16) : (popcntLut i).toInt = count i := by
  have hfold : ∀ (l : List (Fin 16)) (n : Nat),
      l.foldl (fun n j => if mem i j then n + 1 else n) (BitVec.ofNat 8 n) =
        BitVec.ofNat 8 (n + (l.filter (mem i)).length) := by
    intro l
    induction l with
    | nil => intro n; rfl
    | cons j l ih =>
      intro n
      rw [List.foldl_cons]
      cases hj : mem i j with
      | true =>
        rw [if_pos rfl, show BitVec.ofNat 8 n + 1 = BitVec.ofNat 8 (n + 1) from BitVec.ofNat_add_ofNat n 1,
          ih, List.filter_cons_of_pos hj, List.length_cons]
        congr 1
        omega
      | false => rw [if_neg (by simp), ih, List.filter_cons_of_neg (by simp [hj])]
  have hlut : popcntLut i = BitVec.ofNat 8 (count i) := by
    have h := hfold (List.finRange 16) 0
    rwa [Nat.zero_add] at h
  rw [hlut]
  exact toInt_ofNat8 ⟨count i, Nat.lt_succ_of_le (count_le i)⟩

/-! ## A table at a part of the word -/

section Parts

variable {bits : BitVec 64} {s : Nat} {lut : BitVec 16 → BitVec 8}

theorem getLsbD_ffff : ∀ i : Fin 16, (0xffff#64).getLsbD i.val = true := by decide

theorem and_ffff_lt (x : BitVec 64) : (x &&& 0xffff#64).toNat < 65536 := by
  rw [BitVec.toNat_and]
  exact Nat.lt_of_le_of_lt Nat.and_le_right (by decide)

theorem setWidth_shift (bits : BitVec 64) (s : Nat) :
    (bits >>> s).setWidth 16 = bits.extractLsb' s 16 := by
  apply BitVec.eq_of_getLsbD_eq
  intro i hi
  rw [BitVec.getLsbD_setWidth, BitVec.getLsbD_ushiftRight, BitVec.getLsbD_extractLsb']

theorem setWidth_and (x : BitVec 64) : (x &&& 0xffff#64).setWidth 16 = x.setWidth 16 := by
  apply BitVec.eq_of_getLsbD_eq
  intro i hi
  rw [BitVec.getLsbD_setWidth, BitVec.getLsbD_setWidth, BitVec.getLsbD_and,
    show (0xffff#64).getLsbD i = true from getLsbD_ffff ⟨i, hi⟩, Bool.and_true]

theorem look_part (lut : BitVec 16 → BitVec 8) (bits : BitVec 64) (s : Nat) :
    look lut ((bits >>> s) &&& 0xffff#64) = some (lut (bits.extractLsb' s 16)).toInt := by
  rw [look, if_pos (and_ffff_lt _), setWidth_and, setWidth_shift]

/-- A table can be looked up at what is left of the word if no more than 16 bits are. -/
theorem look_rest (lut : BitVec 16 → BitVec 8) (h : bits.toNat < 2 ^ (s + 16)) :
    look lut (bits >>> s) = some (lut (bits.extractLsb' s 16)).toInt := by
  have hlt : (bits >>> s).toNat < 65536 := by
    rw [BitVec.toNat_ushiftRight, Nat.shiftRight_eq_div_pow]
    refine Nat.div_lt_of_lt_mul ?_
    rw [Nat.pow_add] at h
    exact h
  rw [look, if_pos hlt, setWidth_shift]

theorem part_ne_zero : ((bits >>> s) &&& 0xffff#64 != 0) = (bits.extractLsb' s 16 != 0#16) := by
  rw [← setWidth_shift, ← setWidth_and]
  have hlt := and_ffff_lt (bits >>> s)
  generalize (bits >>> s) &&& 0xffff#64 = x at hlt
  rw [Bool.eq_iff_iff, bne_iff_ne, bne_iff_ne, ne_eq, ne_eq, not_iff_not, ← BitVec.toNat_inj,
    ← BitVec.toNat_inj, BitVec.toNat_setWidth, Nat.mod_eq_of_lt (by omega)]
  rfl

/-! ## The cascades find what they look for -/

/-- The test of `lsb` at bit `s`, with the bits below it clear. -/
theorem lsb_at (hs : s + 16 ≤ 64) (hlow : ∀ i : Fin 64, i.val < s → mem bits i = false)
    (hne : bits.extractLsb' s 16 ≠ 0#16) :
    (look lsbLut ((bits >>> s) &&& 0xffff#64)).map (· + (s : Int)) = some (scanResult (lowest bits)) := by
  cases hp : lowest (bits.extractLsb' s 16) with
  | none => exact absurd (lowest_eq_none.mp hp) hne
  | some j =>
    rw [look_part, Option.map_some, lsbLut_eq, hp, lowest_of_part hs hlow hp]
    simp [scanResult, Int.add_comm]

theorem low_step (hs : s + 16 ≤ 64) (hlow : ∀ i : Fin 64, i.val < s → mem bits i = false)
    (hz : bits.extractLsb' s 16 = 0#16) : ∀ i : Fin 64, i.val < s + 16 → mem bits i = false := by
  intro i hi
  rcases Nat.lt_or_ge i.val s with h | h
  · exact hlow i h
  · exact mem_of_part_eq_zero hs hz h hi

theorem lsb_eq (bits : BitVec 64) : lsb bits = some (scanResult (lowest bits)) := by
  have h0 : ∀ i : Fin 64, i.val < 0 → mem bits i = false := fun i hi => absurd hi (Nat.not_lt_zero _)
  have hbits : bits &&& 0xffff#64 = (bits >>> 0) &&& 0xffff#64 := by rw [BitVec.ushiftRight_zero]
  unfold lsb
  rw [hbits, part_ne_zero, part_ne_zero, part_ne_zero, part_ne_zero]
  by_cases hp0 : bits.extractLsb' 0 16 = 0#16
  · have h16 := low_step (by decide) h0 hp0
    rw [if_neg (by simp [hp0])]
    by_cases hp1 : bits.extractLsb' 16 16 = 0#16
    · have h32 := low_step (by decide) h16 hp1
      rw [if_neg (by simp [hp1])]
      by_cases hp2 : bits.extractLsb' 32 16 = 0#16
      · have h48 := low_step (by decide) h32 hp2
        rw [if_neg (by simp [hp2])]
        by_cases hp3 : bits.extractLsb' 48 16 = 0#16
        · have h64 := low_step (by decide) h48 hp3
          rw [if_neg (by simp [hp3])]
          have hz : lowest bits = none :=
            lowest_eq_none.mpr ((eq_zero_iff bits).mpr fun i => h64 i i.isLt)
          rw [hz]
          rfl
        · rw [if_pos (by simp [hp3])]
          exact lsb_at (by decide) h48 hp3
      · rw [if_pos (by simp [hp2])]
        exact lsb_at (by decide) h32 hp2
    · rw [if_pos (by simp [hp1])]
      exact lsb_at (by decide) h16 hp1
  · rw [if_pos (by simp [hp0])]
    have h := lsb_at (by decide) h0 hp0
    simpa using h

/-- The test of `msb` at bit `s`, with the bits above the part clear. -/
theorem msb_at (hs : s + 16 ≤ 64) (hlt : bits.toNat < 2 ^ (s + 16))
    (hne : bits.extractLsb' s 16 ≠ 0#16) :
    (look msbLut (bits >>> s)).map (· + (s : Int)) = some (scanResult (highest bits)) := by
  have hhigh : ∀ i : Fin 64, s + 16 ≤ i.val → mem bits i = false := by
    intro i hi
    rw [mem_eq_getLsbD]
    exact Nat.testBit_lt_two_pow (Nat.lt_of_lt_of_le hlt (Nat.pow_le_pow_right (by decide) hi))
  cases hp : highest (bits.extractLsb' s 16) with
  | none => exact absurd (highest_eq_none.mp hp) hne
  | some j =>
    rw [look_rest _ hlt, Option.map_some, msbLut_eq, hp, highest_of_part hs hhigh hp]
    simp [scanResult, Int.add_comm]

/-- What is left of the word after a shift. -/
theorem shift_eq_zero : (bits >>> s != 0) = false ↔ bits.toNat < 2 ^ s := by
  rw [bne_eq_false_iff_eq, ← BitVec.toNat_inj, BitVec.toNat_ushiftRight, Nat.shiftRight_eq_div_pow]
  exact Nat.div_eq_zero_iff_lt (Nat.two_pow_pos s)

theorem part_ne_zero_of_shift (hlt : bits.toNat < 2 ^ (s + 16)) (h : (bits >>> s != 0) = true) :
    bits.extractLsb' s 16 ≠ 0#16 := by
  intro hz
  have hle : 2 ^ s ≤ bits.toNat := by
    by_contra hlt
    rw [shift_eq_zero.mpr (by omega)] at h
    cases h
  have hdiv : bits.toNat / 2 ^ s < 2 ^ 16 := by
    refine Nat.div_lt_of_lt_mul ?_
    rwa [Nat.pow_add] at hlt
  have hpos : 0 < bits.toNat / 2 ^ s := Nat.div_pos hle (Nat.two_pow_pos s)
  have hn : (bits.extractLsb' s 16).toNat = bits.toNat / 2 ^ s := by
    rw [BitVec.extractLsb'_toNat, Nat.shiftRight_eq_div_pow, Nat.mod_eq_of_lt hdiv]
  rw [hz] at hn
  simp only [BitVec.toNat_zero] at hn
  omega

theorem msb_eq (bits : BitVec 64) : msb bits = some (scanResult (highest bits)) := by
  unfold msb
  cases h3 : bits >>> 48 != 0 with
  | true =>
    have hlt : bits.toNat < 2 ^ (48 + 16) := bits.isLt
    rw [if_pos rfl]
    exact msb_at (by decide) hlt (part_ne_zero_of_shift hlt h3)
  | false =>
    have h48 : bits.toNat < 2 ^ (32 + 16) := shift_eq_zero.mp h3
    rw [if_neg (by simp)]
    cases h2 : bits >>> 32 != 0 with
    | true =>
      rw [if_pos rfl]
      exact msb_at (by decide) h48 (part_ne_zero_of_shift h48 h2)
    | false =>
      have h32 : bits.toNat < 2 ^ (16 + 16) := shift_eq_zero.mp h2
      rw [if_neg (by simp)]
      cases h1 : bits >>> 16 != 0 with
      | true =>
        rw [if_pos rfl]
        exact msb_at (by decide) h32 (part_ne_zero_of_shift h32 h1)
      | false =>
        have h16 : bits.toNat < 2 ^ (0 + 16) := shift_eq_zero.mp h1
        rw [if_neg (by simp)]
        by_cases hz : bits = 0#64
        · subst hz
          decide
        · have hne : bits.extractLsb' 0 16 ≠ 0#16 := by
            refine part_ne_zero_of_shift h16 ?_
            rw [BitVec.ushiftRight_zero]
            simpa using hz
          have h := msb_at (by decide) h16 hne
          rw [BitVec.ushiftRight_zero] at h
          simpa using h

theorem popcnt_eq (bits : BitVec 64) : popcnt bits = some (count bits : Int) := by
  have hbits : bits &&& 0xffff#64 = (bits >>> 0) &&& 0xffff#64 := by rw [BitVec.ushiftRight_zero]
  have hsum : count bits = countIn bits 0 16 + countIn bits 16 16 + countIn bits 32 16 +
      countIn bits 48 16 := by
    rw [count_eq_countIn, ← countIn_add 0 16 16, ← countIn_add 0 (16 + 16) 16,
      ← countIn_add 0 (16 + 16 + 16) 16]
  unfold popcnt
  rw [hbits, look_part, look_part, look_part, look_part]
  simp only [popcntLut_eq, count_part, hsum]
  push_cast
  rfl

end Parts

end Lut

/-! ## The compiler's functions -/

namespace Builtin

/-- `__builtin_ctzll` -/
def lsb (bits : BitVec 64) : Option Int := if bits != 0 then some bits.ctz.toNat else some (-1)

/-- `63 - __builtin_clzll` -/
def msb (bits : BitVec 64) : Option Int := if bits != 0 then some (63 - bits.clz.toNat) else some (-1)

theorem lsb_eq (bits : BitVec 64) : lsb bits = some (scanResult (lowest bits)) := by
  unfold lsb
  by_cases hz : bits = 0#64
  · rw [if_neg (by simp [hz]), lowest_eq_none.mpr hz]
    rfl
  · have hlt : bits.ctz.toNat < 64 := by
      have h := BitVec.ctz_lt_iff_ne_zero.mpr hz
      simpa [BitVec.lt_def] using h
    have hlow : lowest bits = some ⟨bits.ctz.toNat, hlt⟩ := by
      refine lowest_eq_some.mpr ⟨?_, fun j hj => ?_⟩
      · rw [mem_eq_getLsbD]
        exact BitVec.getLsbD_true_ctz_of_ne_zero hz
      · rw [mem_eq_getLsbD]
        exact BitVec.getLsbD_false_of_lt_ctz hj
    rw [if_pos (by simpa using hz), hlow]
    rfl

theorem msb_eq (bits : BitVec 64) : msb bits = some (scanResult (highest bits)) := by
  unfold msb
  by_cases hz : bits = 0#64
  · rw [if_neg (by simp [hz]), highest_eq_none.mpr hz]
    rfl
  · have hlt : bits.clz.toNat < 64 := by
      have h := BitVec.clz_lt_iff_ne_zero.mpr hz
      simpa [BitVec.lt_def] using h
    have hhigh : highest bits = some ⟨64 - 1 - bits.clz.toNat, by omega⟩ := by
      refine highest_eq_some.mpr ⟨?_, fun j hj => ?_⟩
      · rw [mem_eq_getLsbD]
        exact BitVec.getLsbD_true_clz_of_ne_zero (by decide) hz
      · rw [mem_eq_getLsbD]
        have hj : 64 - 1 - bits.clz.toNat < j.val := hj
        exact Nat.testBit_lt_two_pow (Nat.lt_of_lt_of_le BitVec.toNat_lt_two_pow_sub_clz
          (Nat.pow_le_pow_right (by decide) (by omega)))
    rw [if_pos (by simpa using hz), hhigh]
    show some _ = some (((64 - 1 - bits.clz.toNat : Nat)) : Int)
    congr 1
    omega

end Builtin

/-! ## The loop -/

/-- `BITBOARD_FIRSTBIT` is `lsb` or `msb`, from the tables or from the compiler. -/
inductive Firstbit where
  | lsb (builtin : Bool)
  | msb (builtin : Bool)
  deriving DecidableEq, Repr

namespace Firstbit

def firstbit : Firstbit → BitVec 64 → Option Int
  | .lsb builtin => if builtin then Builtin.lsb else Lut.lsb
  | .msb builtin => if builtin then Builtin.msb else Lut.msb

/-- What it looks for. -/
def scan : Firstbit → Scan 64
  | .lsb _ => Chess.lsb
  | .msb _ => Chess.msb

end Firstbit

/-- `clearbit(b)`; the shift has no meaning for other numbers than those of the bits. -/
def clearbit (bits : BitVec 64) (b : Int) : Option (BitVec 64) :=
  if 0 ≤ b ∧ b < 64 then some (bits &&& ~~~(1#64 <<< b.toNat)) else none

/-- `while (bb) { sq = bb.firstbit(); bb.clearbit(sq); .. }`, with the squares in the order of the
visits; `none` if the fuel does not suffice. -/
def visit (firstbit : BitVec 64 → Option Int) : Nat → BitVec 64 → Option (List Int)
  | 0, _ => none
  | fuel + 1, bb =>
    if bb != 0 then do
      let sq ← firstbit bb
      let bb ← clearbit bb sq
      let rest ← visit firstbit fuel bb
      return sq :: rest
    else some []

theorem lsb_pick (bits : BitVec 64) : lsb.pick bits = lowest bits := rfl

theorem msb_pick (bits : BitVec 64) : msb.pick bits = highest bits := by
  cases hp : msb.pick bits with
  | none => rw [highest_eq_none.mpr (msb.pick_none bits hp)]
  | some i =>
    refine (highest_eq_some.mpr ⟨msb.pick_mem bits i hp, fun j hj => ?_⟩).symm
    simp only [msb] at hp
    split at hp
    · rename_i hne
      cases hp
      rw [mem_eq_getLsbD]
      exact Nat.testBit_lt_two_pow ((Nat.log2_lt hne).mp hj)
    · cases hp

/-- All versions of `firstbit()` give the number of a set bit. -/
theorem Firstbit.firstbit_eq (fb : Firstbit) (bits : BitVec 64) :
    fb.firstbit bits = some (scanResult (fb.scan.pick bits)) := by
  cases fb with
  | lsb builtin =>
    show _ = some (scanResult (Chess.lsb.pick bits))
    rw [lsb_pick]
    cases builtin with
    | true => exact Builtin.lsb_eq bits
    | false => exact Lut.lsb_eq bits
  | msb builtin =>
    show _ = some (scanResult (Chess.msb.pick bits))
    rw [msb_pick]
    cases builtin with
    | true => exact Builtin.msb_eq bits
    | false => exact Lut.msb_eq bits

theorem clearbit_eq (bits : BitVec 64) (i : Fin 64) :
    clearbit bits i.val = some (erase bits i) := by
  have hi := i.isLt
  rw [clearbit, if_pos (by omega), Int.toNat_natCast]
  rfl

/-- **The loop visits what is drained**, as soon as there is one round more than set bits. -/
theorem visit_eq (fb : Firstbit) (fuel : Nat) (bits : BitVec 64) (h : count bits ≤ fuel) :
    visit fb.firstbit (fuel + 1) bits =
      some ((drainFuel fb.scan fuel bits).map fun i => (i.val : Int)) := by
  induction fuel generalizing bits with
  | zero =>
    have hz : bits = 0#64 := (count_eq_zero bits).mp (by omega)
    rw [visit, if_neg (by simp [hz])]
    rfl
  | succ fuel ih =>
    rw [visit, drainFuel]
    cases hp : fb.scan.pick bits with
    | none =>
      rw [if_neg (by simp [fb.scan.pick_none bits hp])]
      rfl
    | some i =>
      have hmem := fb.scan.pick_mem bits i hp
      have hne : (bits != 0) = true := (any_iff bits).mpr ⟨i, hmem⟩
      have hcount := count_erase bits i hmem
      rw [if_pos hne, fb.firstbit_eq, hp]
      show (clearbit bits i.val).bind _ = _
      rw [clearbit_eq]
      show (visit fb.firstbit (fuel + 1) (erase bits i)).bind _ = _
      rw [ih (erase bits i) (by omega)]
      rfl

/-! ## Every word -/

/-- The number of the lowest set bit, or -1. -/
def LowestBit (w : BitVec 64) (r : Int) : Prop :=
  w = 0 ∧ r = -1 ∨ ∃ i : Nat, r = i ∧ w.getLsbD i = true ∧ ∀ j, j < i → w.getLsbD j = false

/-- The number of the highest set bit, or -1. -/
def HighestBit (w : BitVec 64) (r : Int) : Prop :=
  w = 0 ∧ r = -1 ∨ ∃ i : Nat, r = i ∧ w.getLsbD i = true ∧ ∀ j, i < j → w.getLsbD j = false

theorem lowestBit_scanResult (w : BitVec 64) : LowestBit w (scanResult (lowest w)) := by
  cases hp : lowest w with
  | none => exact .inl ⟨lowest_eq_none.mp hp, rfl⟩
  | some i =>
    obtain ⟨hi, hleast⟩ := lowest_eq_some.mp hp
    rw [mem_eq_getLsbD] at hi
    refine .inr ⟨i.val, rfl, hi, fun j hj => ?_⟩
    have hm := hleast ⟨j, hj.trans i.isLt⟩ hj
    rwa [mem_eq_getLsbD] at hm

theorem highestBit_scanResult (w : BitVec 64) : HighestBit w (scanResult (highest w)) := by
  cases hp : highest w with
  | none => exact .inl ⟨highest_eq_none.mp hp, rfl⟩
  | some i =>
    obtain ⟨hi, hmost⟩ := highest_eq_some.mp hp
    rw [mem_eq_getLsbD] at hi
    refine .inr ⟨i.val, rfl, hi, fun j hj => ?_⟩
    rcases Nat.lt_or_ge j 64 with hlt | hge
    · have hm := hmost ⟨j, hlt⟩ hj
      rwa [mem_eq_getLsbD] at hm
    · exact BitVec.getLsbD_of_ge w j hge

theorem count_eq_card (w : BitVec 64) :
    count w = (Finset.univ.filter fun i : Fin 64 => w.getLsbD i.val = true).card := by
  have hset : (Finset.univ.filter fun i : Fin 64 => w.getLsbD i.val = true) =
      ((List.finRange 64).filter (mem w)).toFinset := by
    ext i
    simp [mem_eq_getLsbD]
  rw [hset, List.toFinset_card_of_nodup ((List.nodup_finRange 64).filter _)]
  rfl

/-- What the scans and the loops with them do for a word. -/
structure ScansRight (w : BitVec 64) : Prop where
  lsb : ∃ r, Lut.lsb w = some r ∧ LowestBit w r
  msb : ∃ r, Lut.msb w = some r ∧ HighestBit w r
  popcnt : Lut.popcnt w =
    some ((Finset.univ.filter fun i : Fin 64 => w.getLsbD i.val = true).card : Int)
  visit : ∀ fb : Firstbit, ∃ visited : List Int,
    (∀ fuel, 64 < fuel → visit fb.firstbit fuel w = some visited) ∧ visited.Nodup ∧
      ∀ sq, sq ∈ visited ↔ ∃ i : Nat, sq = i ∧ w.getLsbD i = true

/-- **The bit scans are right for every word.** -/
theorem scans_right (w : BitVec 64) : ScansRight w where
  lsb := ⟨_, Lut.lsb_eq w, lowestBit_scanResult w⟩
  msb := ⟨_, Lut.msb_eq w, highestBit_scanResult w⟩
  popcnt := by rw [Lut.popcnt_eq, count_eq_card]
  visit := by
    intro fb
    refine ⟨(drain fb.scan w).map fun i => (i.val : Int), fun fuel hlt => ?_, ?_, fun sq => ?_⟩
    · cases fuel with
      | zero => omega
      | succ fuel =>
        have hle := count_le w
        rw [visit_eq fb fuel w (by omega), drainFuel_eq fb.scan (by omega) (count_le w)]
        rfl
    · refine (drain_nodup fb.scan w).map fun i j h => Fin.ext ?_
      exact_mod_cast h
    · rw [List.mem_map]
      constructor
      · rintro ⟨i, hi, rfl⟩
        rw [mem_drain, mem_eq_getLsbD] at hi
        exact ⟨i.val, rfl, hi⟩
      · rintro ⟨i, rfl, hi⟩
        have hlt : i < 64 := by
          by_contra hge
          rw [BitVec.getLsbD_of_ge w i (by omega)] at hi
          cases hi
        refine ⟨⟨i, hlt⟩, ?_, rfl⟩
        rw [mem_drain, mem_eq_getLsbD]
        exact hi

end HoiChess.Chess
