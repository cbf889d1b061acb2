import Mathlib.Data.List.TakeWhile

/-!
# Reading a text file in C

A stream is what is left to be read and the end-of-file mark, which is set only by a read
that finds nothing left.  `fgets` hands out lines (`fgets_line`), `strtok` the words between
separators (`strtok_word`), and a buffer is a string up to its first NUL (`cstr`).
-/

namespace Stdio

/-- What is left of a file, and its end-of-file mark. -/
structure Stream where
  rest : List Char
  eof : Bool
  deriving DecidableEq

/-- A file that is opened for reading. -/
def Stream.ofText (s : List Char) : Stream := ⟨s, false⟩

/-- What a loop over `feof` makes smaller. -/
def Stream.left (fp : Stream) : Nat := fp.rest.length + if fp.eof then 0 else 1

/-- A test of every character of a text is made along the text, not over all characters. -/
instance (priority := 2000) decidableForallChars {p : Char → Prop} [DecidablePred p] (s : List Char) :
    Decidable (∀ c ∈ s, p c) := List.decidableBAll p s

/-- The string in a buffer. -/
def cstr (buf : List Char) : List Char := buf.takeWhile (fun c => c ≠ '\x00')

theorem cstr_eq_self {s : List Char} (h : ∀ c ∈ s, c ≠ '\x00') : cstr s = s := by
  rw [cstr, List.takeWhile_eq_self_iff]
  intro c hc
  simpa using h c hc

/-! ## Lines -/

/-- At most so many characters, up to a newline and with it. -/
def line : Nat → List Char → List Char × Stream
  | 0, s => ([], ⟨s, false⟩)
  | _ + 1, [] => ([], ⟨[], true⟩)
  | n + 1, c :: cs =>
    if c = '\n' then ([c], ⟨cs, false⟩)
    else
      let (l, fp) := line n cs
      (c :: l, fp)

/-- `fgets(buf, size, fp)`; `none` is `NULL`. -/
def fgets (size : Nat) (fp : Stream) : Option (List Char) × Stream :=
  let (l, fp) := line (size - 1) fp.rest
  (if l = [] then none else some l, fp)

theorem line_length (n : Nat) (s : List Char) :
    (line n s).1.length + (line n s).2.rest.length = s.length := by
  induction n generalizing s with
  | zero => simp [line]
  | succ n ih =>
    cases s with
    | nil => rfl
    | cons c s =>
      rw [line]
      split
      · simp
        omega
      · have := ih s
        simp only [List.length_cons]
        omega

theorem fgets_rest_lt {size : Nat} {fp fp' : Stream} {l : List Char}
    (h : fgets size fp = (some l, fp')) : fp'.rest.length < fp.rest.length := by
  have hlen := line_length (size - 1) fp.rest
  unfold fgets at h
  dsimp only at h
  obtain ⟨hl, rfl⟩ := Prod.mk.inj h
  split at hl
  · cases hl
  · rename_i hne
    have := List.length_pos_iff.mpr hne
    omega

theorem line_append {l t : List Char} {n : Nat} (hl : '\n' ∉ l) (hn : l.length < n) :
    line n (l ++ '\n' :: t) = (l ++ ['\n'], ⟨t, false⟩) := by
  induction l generalizing n with
  | nil =>
    obtain ⟨n, rfl⟩ := Nat.exists_eq_add_of_lt hn
    simp [line]
  | cons c l ih =>
    obtain ⟨n, rfl⟩ : ∃ m, n = m + 1 := ⟨n - 1, by omega⟩
    have hc : c ≠ '\n' := by
      rintro rfl
      exact hl List.mem_cons_self
    rw [List.cons_append, line, if_neg hc,
      ih (fun hm => hl (List.mem_cons_of_mem _ hm)) (by simpa using hn)]
    rfl

/-- **A line that fits the buffer is read whole.** -/
theorem fgets_line {size : Nat} {l t : List Char} (hl : '\n' ∉ l) (hn : l.length + 1 < size)
    (eof : Bool) : fgets size ⟨l ++ '\n' :: t, eof⟩ = (some (l ++ ['\n']), ⟨t, false⟩) := by
  unfold fgets
  simp only [line_append hl (show l.length < size - 1 by omega)]
  simp

/-! ## Words -/

/-- `strtok_r`: the next word and what follows its separator; `none` is `NULL`. -/
def strtok (delim : Char → Bool) (s : List Char) : Option (List Char × List Char) :=
  let s := s.dropWhile delim
  if s = [] then none
  else some (s.takeWhile (fun c => !delim c), (s.dropWhile (fun c => !delim c)).tail)

/-- **A word between two separators.** -/
theorem strtok_word {delim : Char → Bool} {pre w t : List Char} {d : Char}
    (hpre : ∀ c ∈ pre, delim c = true) (hne : w ≠ []) (hw : ∀ c ∈ w, delim c = false)
    (hd : delim d = true) : strtok delim (pre ++ (w ++ d :: t)) = some (w, t) := by
  obtain ⟨c, w', rfl⟩ := List.exists_cons_of_ne_nil hne
  have hc : delim c = false := hw c List.mem_cons_self
  have hdrop : (pre ++ (c :: w' ++ d :: t)).dropWhile delim = c :: w' ++ d :: t := by
    rw [List.dropWhile_append_of_pos hpre, List.cons_append,
      List.dropWhile_cons_of_neg (by simp [hc])]
  have htake : (c :: w' ++ d :: t).takeWhile (fun c => !delim c) = c :: w' := by
    rw [List.takeWhile_append_of_pos fun x hx => by rw [hw x hx]; rfl,
      List.takeWhile_cons_of_neg (by simp [hd]), List.append_nil]
  have hrest : (c :: w' ++ d :: t).dropWhile (fun c => !delim c) = d :: t := by
    rw [List.dropWhile_append_of_pos fun x hx => by rw [hw x hx]; rfl,
      List.dropWhile_cons_of_neg (by simp [hd])]
  unfold strtok
  simp only [hdrop, htake, hrest]
  rw [if_neg (by simp)]
  rfl

end Stdio
