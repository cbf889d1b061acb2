import Mathlib.Algebra.Group.Nat.Defs
import Mathlib.Data.List.Basic

/-!
# Positions in a string of C++

`std::string` counts characters with a 64-bit `size_t`, whose last value is `npos`.  A search
from a position on finds the first character that passes a test (`find_hit`) or nothing
(`find_miss`, `find_past`); `substr` and `replace` cut off what lies behind the end and throw
where they start behind it, or where the result would be too long.
-/

namespace StdString

/-- `std::string::npos` -/
def npos : Nat := 2 ^ 64 - 1

/-- `max_size()` -/
def maxSize : Nat := 2 ^ 63 - 1

/-- What the operations throw. -/
inductive Thrown where
  | outOfRange
  | length
  deriving DecidableEq

def sizeAdd (a b : Nat) : Nat := (a + b) % 2 ^ 64

def sizeSub (a b : Nat) : Nat := (a + 2 ^ 64 - b) % 2 ^ 64

theorem sizeAdd_eq {a b : Nat} (h : a + b ≤ npos) : sizeAdd a b = a + b := by
  unfold npos at h
  exact Nat.mod_eq_of_lt (by omega)

theorem sizeSub_eq {a b : Nat} (hb : b ≤ a) (ha : a ≤ npos) : sizeSub a b = a - b := by
  unfold npos at ha
  unfold sizeSub
  omega

/-- `find_first_of` and `find_first_not_of`: the first position from `pos` on with such a
character. -/
def find (p : Char → Bool) (s : List Char) (pos : Nat) : Nat :=
  match (s.drop pos).findIdx? p with
  | some i => pos + i
  | none => npos

/-- `substr(pos, n)` -/
def substr (s : List Char) (pos n : Nat) : Except Thrown (List Char) :=
  if s.length < pos then .error .outOfRange else .ok ((s.drop pos).take n)

/-- `replace(pos, n, val)` -/
def replace (s : List Char) (pos n : Nat) (val : List Char) : Except Thrown (List Char) :=
  if s.length < pos then .error .outOfRange
  else
    let t := s.take pos ++ (val ++ (s.drop pos).drop n)
    if maxSize < t.length then .error .length else .ok t

section Search

variable {p : Char → Bool} {out s : List Char}

theorem find_hit {pre post : List Char} {c : Char} (hpre : ∀ d ∈ pre, p d = false)
    (hc : p c = true) : find p (out ++ (pre ++ c :: post)) out.length = out.length + pre.length := by
  have hidx : (pre ++ c :: post).findIdx? p = some pre.length := by
    rw [List.findIdx?_append, List.findIdx?_eq_none_iff.mpr hpre, List.findIdx?_cons, hc]
    simp
  rw [find, List.drop_left, hidx]

theorem find_miss (h : ∀ d ∈ s, p d = false) : find p (out ++ s) out.length = npos := by
  rw [find, List.drop_left, List.findIdx?_eq_none_iff.mpr h]

theorem find_past {pos : Nat} (h : s.length ≤ pos) : find p s pos = npos := by
  rw [find, List.drop_eq_nil_of_le h]
  rfl

/-- Two pieces of a text. -/
theorem substr_append {t : List Char} {n : Nat} (h : n = s.length) :
    substr (out ++ (s ++ t)) out.length n = .ok s := by
  rw [substr, if_neg (by simp), List.drop_left, h, List.take_left]

/-- What lies behind the end is cut off. -/
theorem substr_rest {n : Nat} (h : s.length ≤ n) : substr (out ++ s) out.length n = .ok s := by
  rw [substr, if_neg (by simp), List.drop_left, List.take_of_length_le h]

theorem replace_append {t val : List Char} {n : Nat} (h : (s ++ t).drop n = t) :
    replace (out ++ (s ++ t)) out.length n val =
      if maxSize < (out ++ (val ++ t)).length then .error .length
      else .ok (out ++ (val ++ t)) := by
  rw [replace, if_neg (by simp)]
  simp only [List.take_left, List.drop_left, h]

end Search

end StdString
