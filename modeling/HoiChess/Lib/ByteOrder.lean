import Mathlib.Data.List.Basic
import Mathlib.Data.Nat.Bits

/-!
# Byte order

A word of `k` bytes is read and assembled byte by byte.  Assembling the bytes in the
opposite order is its own inverse (`reverseBytes_reverseBytes`).
-/

namespace ByteOrder

variable {w k : Nat}

/-- The `n`-th byte from the low end. -/
def getByte (v : BitVec w) (n : Nat) : BitVec w := (v >>> (n * 8)) &&& 0xff#w

/-- A byte moved to the `n`-th place. -/
def setByte (v : BitVec w) (n : Nat) : BitVec w := v <<< (n * 8)

/-- The word with its `k` bytes in the opposite order. -/
def reverseBytes (k : Nat) (v : BitVec w) : BitVec w :=
  ((List.range k).map (fun n => setByte (getByte v n) (k - 1 - n))).foldr (· ||| ·) 0#w

theorem getLsbD_byteMask (i : Nat) : (0xff#w).getLsbD i = (decide (i < w) && decide (i < 8)) := by
  rw [BitVec.getLsbD_ofNat]
  congr 1
  have h : (255 : Nat) = 2 ^ 8 - 1 := rfl
  rw [h, Nat.testBit_two_pow_sub_one]

theorem getLsbD_getByte (v : BitVec w) (n i : Nat) :
    (getByte v n).getLsbD i = (v.getLsbD (n * 8 + i) && decide (i < w) && decide (i < 8)) := by
  rw [getByte, BitVec.getLsbD_and, BitVec.getLsbD_ushiftRight, getLsbD_byteMask, Bool.and_assoc]

theorem getLsbD_setByte (v : BitVec w) (n i : Nat) :
    (setByte v n).getLsbD i = (decide (i < w) && !decide (i < n * 8) && v.getLsbD (i - n * 8)) := by
  rw [setByte, BitVec.getLsbD_shiftLeft]

theorem getLsbD_foldr_or (l : List (BitVec w)) (i : Nat) :
    (l.foldr (· ||| ·) 0#w).getLsbD i = l.any (fun v => v.getLsbD i) := by
  induction l with
  | nil => simp
  | cons v l ih => rw [List.foldr_cons, BitVec.getLsbD_or, ih, List.any_cons]

/-- **Each bit moves to the mirrored byte and keeps its place there.** -/
theorem getLsbD_reverseBytes (hw : w = 8 * k) (v : BitVec w) {i : Nat} (hi : i < w) :
    (reverseBytes k v).getLsbD i = v.getLsbD ((k - 1 - i / 8) * 8 + i % 8) := by
  rw [reverseBytes, getLsbD_foldr_or, List.any_map]
  apply Bool.eq_iff_iff.mpr
  simp only [List.any_eq_true, List.mem_range, Function.comp_apply, getLsbD_setByte,
    getLsbD_getByte, Bool.and_eq_true, Bool.not_eq_true', decide_eq_true_eq, decide_eq_false_iff_not]
  constructor
  · rintro ⟨n, hn, ⟨_, hlow⟩, ⟨hbit, _⟩, hhigh⟩
    have h1 : n = k - 1 - i / 8 := by omega
    have h2 : i - (k - 1 - n) * 8 = i % 8 := by omega
    rwa [h2, h1] at hbit
  · intro hbit
    have h1 : k - 1 - (k - 1 - i / 8) = i / 8 := by omega
    refine ⟨k - 1 - i / 8, by omega, ⟨hi, ?_⟩, ⟨?_, ?_⟩, ?_⟩
    · rw [h1]
      omega
    · rw [h1]
      have h2 : i - i / 8 * 8 = i % 8 := by omega
      rwa [h2]
    · omega
    · rw [h1]
      omega

/-- **Reversing the bytes twice changes nothing.** -/
theorem reverseBytes_reverseBytes (hw : w = 8 * k) (v : BitVec w) :
    reverseBytes k (reverseBytes k v) = v := by
  apply BitVec.eq_of_getLsbD_eq
  intro i hi
  have hj : (k - 1 - i / 8) * 8 + i % 8 < w := by omega
  rw [getLsbD_reverseBytes hw _ hi, getLsbD_reverseBytes hw _ hj]
  congr 1
  have h1 : ((k - 1 - i / 8) * 8 + i % 8) / 8 = k - 1 - i / 8 := by omega
  have h2 : ((k - 1 - i / 8) * 8 + i % 8) % 8 = i % 8 := by omega
  rw [h1, h2]
  omega

end ByteOrder
