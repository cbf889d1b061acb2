import Mathlib.Data.List.Basic

/-!
# Cutting a text into words

A machine reads a text character by character and says of each whether it belongs to the word
at hand, ends it, or both.  A text is cut from left to right (`Machine.scan_append`), and a
character that only ends a word keeps what stands before it and what stands behind it apart
(`Machine.words_append_drop`).
-/

namespace Cutter

/-- What a character does to the word at hand. -/
inductive Cut (σ β : Type) where
  | keep (b : β) (s : σ)
  | last (b : β)
  | drop

/-- Every word begins in the same state. -/
structure Machine (σ α β : Type) where
  start : σ
  cut : σ → α → Cut σ β

/-- The state of the machine and the word at hand. -/
structure Held (σ β : Type) where
  state : σ
  word : List β

namespace Machine

variable {σ α β : Type} (m : Machine σ α β)

def fresh : Held σ β := ⟨m.start, []⟩

/-- The words that end in a text, and the word that is at hand at its end. -/
def scan (h : Held σ β) : List α → List (List β) × Held σ β
  | [] => ([], h)
  | a :: as =>
    match m.cut h.state a with
    | .keep b s => scan ⟨s, h.word ++ [b]⟩ as
    | .last b => ((h.word ++ [b]) :: (scan m.fresh as).1, (scan m.fresh as).2)
    | .drop => (h.word :: (scan m.fresh as).1, (scan m.fresh as).2)

/-- All words of a text; the last one may be empty. -/
def words (as : List α) : List (List β) := (m.scan m.fresh as).1 ++ [(m.scan m.fresh as).2.word]

theorem scan_append (h : Held σ β) (as bs : List α) :
    m.scan h (as ++ bs) = ((m.scan h as).1 ++ (m.scan (m.scan h as).2 bs).1,
      (m.scan (m.scan h as).2 bs).2) := by
  induction as generalizing h with
  | nil => rfl
  | cons a as ih =>
    rw [List.cons_append, scan, scan]
    cases m.cut h.state a with
    | keep b s => exact ih _
    | last b =>
      dsimp only
      rw [ih m.fresh]
      rfl
    | drop =>
      dsimp only
      rw [ih m.fresh]
      rfl

/-- Between two words the text can be cut. -/
theorem words_append {as : List α} (bs : List α) (h : (m.scan m.fresh as).2 = m.fresh) :
    m.words (as ++ bs) = (m.scan m.fresh as).1 ++ m.words bs := by
  unfold words
  rw [scan_append, h, List.append_assoc]

/-- **A character that ends a word** and belongs to none keeps the words on both sides apart. -/
theorem words_append_drop {as : List α} {a : α} (bs : List α)
    (h : m.cut (m.scan m.fresh as).2.state a = .drop) :
    m.words (as ++ a :: bs) = m.words as ++ m.words bs := by
  have htail : m.scan (m.scan m.fresh as).2 (a :: bs) =
      ((m.scan m.fresh as).2.word :: (m.scan m.fresh bs).1, (m.scan m.fresh bs).2) := by
    rw [scan, h]
  unfold words
  rw [scan_append, htail]
  simp

end Machine

end Cutter
