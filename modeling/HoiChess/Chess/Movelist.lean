import HoiChess.Lib.SwapFilter
import HoiChess.Chess.Move

/-!
# Move lists

A `Movelist` holds at most `MOVELIST_MAXSIZE` moves, each with a score;
adding to a full list only prints a warning.  `addAll` is a sequence of
`add`s; as long as there is room it appends (`addAll_moves`).
-/

namespace HoiChess.Chess

abbrev movelistMaxsize : Nat := 256

/-- The moves and scores below `nextin`. -/
structure Movelist where
  entries : List (Move × Int)
  size_le : entries.length ≤ movelistMaxsize
  deriving DecidableEq

namespace Movelist

def empty : Movelist := ⟨[], Nat.zero_le _⟩

def size (ml : Movelist) : Nat := ml.entries.length

def moves (ml : Movelist) : List Move := ml.entries.map Prod.fst

def add (ml : Movelist) (mov : Move) : Movelist :=
  if h : ml.entries.length < movelistMaxsize then
    ⟨ml.entries ++ [(mov, 0)], by rw [List.length_append]; exact h⟩
  else ml

def addAll (ml : Movelist) (l : List Move) : Movelist := l.foldl add ml

/-- `filter_illegal` for a given legality test. -/
def filterBy (ml : Movelist) (legal : Move → Bool) : Movelist :=
  ⟨SwapFilter.run (fun e => legal e.1) ml.entries,
    (SwapFilter.run_length_le _ _).trans ml.size_le⟩

def setScore (ml : Movelist) (i : Nat) (s : Int) : Movelist :=
  ⟨ml.entries.modify i (fun e => (e.1, s)), by rw [List.length_modify]; exact ml.size_le⟩

/-- `swap(i, j)` -/
def swap (ml : Movelist) (i j : Nat) : Movelist :=
  match ml.entries[i]?, ml.entries[j]? with
  | some a, some b =>
    ⟨(ml.entries.set i b).set j a, by simpa only [List.length_set] using ml.size_le⟩
  | _, _ => ml

@[simp] theorem moves_empty : empty.moves = [] := rfl

@[simp] theorem length_moves (ml : Movelist) : ml.moves.length = ml.entries.length :=
  List.length_map _

theorem add_moves (ml : Movelist) (mov : Move) :
    (ml.add mov).moves = (ml.moves ++ [mov]).take movelistMaxsize := by
  have hle := ml.size_le
  unfold add
  split
  · rename_i h
    rw [List.take_of_length_le (by simp; omega)]
    simp [moves]
  · rw [List.take_append_of_le_length (by simp; omega), List.take_of_length_le (by simpa)]

theorem addAll_append (ml : Movelist) (l l' : List Move) :
    ml.addAll (l ++ l') = (ml.addAll l).addAll l' := List.foldl_append

/-- Adding drops exactly what exceeds the array. -/
theorem addAll_moves_take (ml : Movelist) (l : List Move) :
    (ml.addAll l).moves = (ml.moves ++ l).take movelistMaxsize := by
  induction l generalizing ml with
  | nil =>
    rw [List.append_nil, List.take_of_length_le (by simpa using ml.size_le)]
    rfl
  | cons mov l ih =>
    have hle := ml.size_le
    change ((ml.add mov).addAll l).moves = _
    rw [ih, add_moves]
    rcases Nat.lt_or_ge ml.entries.length movelistMaxsize with h | h
    · rw [List.take_of_length_le (l := ml.moves ++ [mov]) (by simp; omega),
        List.append_assoc, List.singleton_append]
    · have hlen : ml.moves.length = movelistMaxsize := by rw [length_moves]; omega
      rw [List.take_left' hlen, List.take_left' hlen, List.take_left' hlen]

theorem addAll_moves {ml : Movelist} {l : List Move}
    (h : ml.size + l.length ≤ movelistMaxsize) : (ml.addAll l).moves = ml.moves ++ l := by
  rw [addAll_moves_take, List.take_of_length_le]
  simpa [size] using h

theorem filterBy_perm (ml : Movelist) (legal : Move → Bool) :
    (ml.filterBy legal).moves.Perm (ml.moves.filter legal) := by
  have h := (SwapFilter.run_perm (fun e : Move × Int => legal e.1) ml.entries).map Prod.fst
  have e : (ml.entries.filter (fun e => legal e.1)).map Prod.fst = ml.moves.filter legal := by
    rw [moves, List.filter_map]
    rfl
  rwa [e] at h

@[simp] theorem mem_filterBy {ml : Movelist} {legal : Move → Bool} {m : Move} :
    m ∈ (ml.filterBy legal).moves ↔ m ∈ ml.moves ∧ legal m = true := by
  rw [(ml.filterBy_perm legal).mem_iff, List.mem_filter]

theorem moves_setScore (ml : Movelist) (i : Nat) (s : Int) : (ml.setScore i s).moves = ml.moves := by
  apply List.ext_getElem?
  intro n
  simp only [moves, setScore, List.getElem?_map, List.getElem?_modify]
  cases ml.entries[n]? with
  | none => rfl
  | some e =>
    simp only [Option.map_some]
    split <;> rfl

/-- Swapping two entries from `i` on permutes what follows `i`. -/
theorem swap_drop_perm (ml : Movelist) {i j : Nat} (hij : i ≤ j) (hj : j < ml.entries.length) :
    ((ml.swap i j).entries.drop i).Perm (ml.entries.drop i) := by
  have hi : i < ml.entries.length := hij.trans_lt hj
  have h : (ml.swap i j).entries = (ml.entries.set i ml.entries[j]).set j ml.entries[i] := by
    unfold swap
    rw [List.getElem?_eq_getElem hi, List.getElem?_eq_getElem hj]
  rw [h, List.drop_set, if_neg (by omega), List.drop_set, if_neg (by omega), Nat.sub_self]
  have h0 : 0 < (ml.entries.drop i).length := by rw [List.length_drop]; omega
  have hm : j - i < (ml.entries.drop i).length := by rw [List.length_drop]; omega
  have := List.set_set_perm h0 hm
  simpa only [List.getElem_drop, Nat.add_zero, Nat.add_sub_cancel' hij] using this

theorem swap_perm (ml : Movelist) {i j : Nat} (hi : i < ml.entries.length) (hj : j < ml.entries.length) :
    (ml.swap i j).entries.Perm ml.entries := by
  unfold swap
  rw [List.getElem?_eq_getElem hi, List.getElem?_eq_getElem hj]
  exact List.set_set_perm hi hj

theorem swap_getElem? (ml : Movelist) {i j : Nat} (hi : i < ml.entries.length)
    (hj : j < ml.entries.length) : (ml.swap i j).entries[i]? = ml.entries[j]? := by
  unfold swap
  rw [List.getElem?_eq_getElem hi, List.getElem?_eq_getElem hj]
  simp only [List.getElem?_set, List.length_set]
  split
  · rename_i h
    subst h
    rfl
  · rw [if_pos trivial]

theorem filterBy_nodup {ml : Movelist} (legal : Move → Bool) (h : ml.moves.Nodup) :
    (ml.filterBy legal).moves.Nodup :=
  (ml.filterBy_perm legal).nodup_iff.mpr (h.filter _)

end Movelist

end HoiChess.Chess
