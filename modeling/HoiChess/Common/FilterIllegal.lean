import HoiChess.Lib.Exec
import HoiChess.Chess.Pins
import HoiChess.Xiangqi.Legality

/-!
# Filtering a move list in place

`filter_illegal` overwrites an illegal move by the last one and looks at the same index again, which
an `unsigned int` does by a step back that may wrap at zero.  Here the loop runs on the two arrays of
the list, and an index outside the list is a bug.  `filterLoop_spec` says that it comes to its end
without one and does to the list what `SwapFilter.loop` does, so that the legal moves stay with
their scores (`filterIllegal_exact`).
-/

namespace HoiChess

/-- The fields of a `Movelist`: `move[n]`, `score[n]` and `nextin`. -/
structure Slots (n : Nat) (M : Type) where
  move : Fin n → M
  score : Fin n → Int
  nextin : BitVec 32

namespace Slots

variable {n : Nat} {M : Type}

def size (ml : Slots n M) : Nat := ml.nextin.toNat

/-- The moves of the list, each with its score. -/
def entries (ml : Slots n M) : List (M × Int) :=
  (List.ofFn fun i => (ml.move i, ml.score i)).take ml.size

/-- `nextin` is not past the end of the arrays. -/
def Fits (ml : Slots n M) : Prop := ml.size ≤ n

/-! ## The functions -/

/-- An index of the list. -/
def slot (i : Int) : Exec (Slots n M) (Fin n) := fun ml =>
  if h : 0 ≤ i ∧ i < ml.size ∧ i < n then .done ⟨i.toNat, by omega⟩ ml else .bug

/-- `swap(i, j)` -/
def swap (i j : Int) : Exec (Slots n M) Unit := do
  let i ← slot i
  let j ← slot j
  Exec.modify fun ml => { ml with
    move := Function.update (Function.update ml.move i (ml.move j)) j (ml.move i)
    score := Function.update (Function.update ml.score i (ml.score j)) j (ml.score i) }

/-- `for (; i<size(); i++) if (drop(move[i])) { swap(i, size()-1); nextin--; i--; }` -/
def filterLoop (drop : M → Bool) : Nat → BitVec 32 → Exec (Slots n M) Unit
  | 0, _ => Exec.outOfFuel
  | fuel + 1, i => do
    let ml ← Exec.get
    if i < ml.nextin then
      let id ← slot i.toNat
      if drop (ml.move id) then
        swap i.toInt (ml.nextin - 1).toInt
        Exec.modify fun ml => { ml with nextin := ml.nextin - 1 }
        filterLoop drop fuel (i - 1 + 1)
      else filterLoop drop fuel (i + 1)
    else pure ()

def filterIllegal (isLegal : M → Bool) (fuel : Nat) : Exec (Slots n M) Unit :=
  filterLoop (fun mov => !isLegal mov) fuel 0

def filterIllegalCastling (isCastle isLegal : M → Bool) (fuel : Nat) : Exec (Slots n M) Unit :=
  filterLoop (fun mov => isCastle mov && !isLegal mov) fuel 0

/-! ## One round of the loop -/

/-- With the last move in place of the one at `i`. -/
def removed (ml : Slots n M) (i last : Fin n) : Slots n M where
  move := Function.update (Function.update ml.move i (ml.move last)) last (ml.move i)
  score := Function.update (Function.update ml.score i (ml.score last)) last (ml.score i)
  nextin := ml.nextin - 1

section Round

variable {ml : Slots n M} {drop : M → Bool} {i : BitVec 32} {fuel : Nat}

theorem slot_done {k : Nat} (h : k < ml.size) (hn : k < n) :
    slot (k : Int) ml = .done ⟨k, hn⟩ ml := by
  rw [slot, dif_pos ⟨by omega, by omega, by omega⟩]
  rfl

theorem entries_getElem? (ml : Slots n M) (k : Nat) :
    ml.entries[k]? =
      if h : k < n then if k < ml.size then some (ml.move ⟨k, h⟩, ml.score ⟨k, h⟩) else none
      else none := by
  rw [entries, List.getElem?_take, List.getElem?_ofFn]
  by_cases hk : k < n <;> by_cases hs : k < ml.size <;> simp [hk, hs]

theorem length_entries (h : ml.Fits) : ml.entries.length = ml.size := by
  rw [entries, List.length_take, List.length_ofFn]
  exact Nat.min_eq_left h

/-- The size is a small number, also as an `int`. -/
theorem toInt_of_lt {x : BitVec 32} (h : x.toNat < 2 ^ 31) : x.toInt = (x.toNat : Int) :=
  BitVec.toInt_eq_toNat_of_lt (by omega)

theorem toNat_pred {x : BitVec 32} (h : 0 < x.toNat) : (x - 1).toNat = x.toNat - 1 := by
  have := x.isLt
  rw [BitVec.toNat_sub]
  show (2 ^ 32 - 1 + x.toNat) % 2 ^ 32 = _
  omega

theorem toNat_succ {x y : BitVec 32} (h : x.toNat < y.toNat) : (x + 1).toNat = x.toNat + 1 := by
  have := y.isLt
  rw [BitVec.toNat_add]
  show (x.toNat + 1) % 2 ^ 32 = _
  omega

theorem swap_done {i j : Nat} (hi : i < ml.size) (hj : j < ml.size) (hin : i < n) (hjn : j < n) :
    swap (i : Int) (j : Int) ml =
      .done () { ml.removed ⟨i, hin⟩ ⟨j, hjn⟩ with nextin := ml.nextin } := by
  unfold swap
  rw [Exec.bind_of_done (slot_done hi hin), Exec.bind_of_done (slot_done hj hjn)]
  rfl

theorem filterLoop_exit (h : ¬ i < ml.nextin) : filterLoop drop (fuel + 1) i ml = .done () ml := by
  rw [filterLoop]
  show (if i < ml.nextin then _ else pure () : Exec (Slots n M) Unit) ml = _
  rw [if_neg h]
  rfl

theorem filterLoop_keep (h : i.toNat < ml.size) (hn : i.toNat < n)
    (hkeep : drop (ml.move ⟨i.toNat, hn⟩) = false) :
    filterLoop drop (fuel + 1) i ml = filterLoop drop fuel (i + 1) ml := by
  rw [filterLoop]
  show (if i < ml.nextin then _ else pure () : Exec (Slots n M) Unit) ml = _
  rw [if_pos (BitVec.lt_def.mpr h), Exec.bind_of_done (slot_done h hn), if_neg (by simp [hkeep])]

theorem filterLoop_drop (h : i.toNat < ml.size) (hfits : ml.Fits) (hn : n < 2 ^ 31)
    (hdrop : drop (ml.move ⟨i.toNat, h.trans_le hfits⟩) = true) :
    filterLoop drop (fuel + 1) i ml = filterLoop drop fuel i
      (ml.removed ⟨i.toNat, h.trans_le hfits⟩
        ⟨ml.size - 1, by have := hfits; unfold Fits at this; omega⟩) := by
  have hsize : ml.size ≤ n := hfits
  have hpos : 0 < ml.nextin.toNat := (Nat.zero_le _).trans_lt h
  have hlast : (ml.nextin - 1).toNat = ml.size - 1 := toNat_pred hpos
  have hi : i.toInt = (i.toNat : Int) := toInt_of_lt (by omega)
  have hj : (ml.nextin - 1).toInt = ((ml.size - 1 : Nat) : Int) := by
    rw [toInt_of_lt (by rw [hlast]; omega), hlast]
  have hback : i - 1 + 1 = i := by rw [BitVec.sub_add_cancel]
  rw [filterLoop]
  show (if i < ml.nextin then _ else pure () : Exec (Slots n M) Unit) ml = _
  rw [if_pos (BitVec.lt_def.mpr h), Exec.bind_of_done (slot_done h (h.trans_le hfits)), if_pos hdrop,
    hi, hj, Exec.bind_of_done (swap_done h (by omega) (h.trans_le hfits) (by omega)), hback]
  rfl

theorem removed_size (hpos : 0 < ml.size) (i last : Fin n) : (ml.removed i last).size = ml.size - 1 :=
  toNat_pred hpos

/-- **The last move takes the place of the one at `i`.** -/
theorem removed_entries (hfits : ml.Fits) {i last : Fin n} (hi : i.val < ml.size)
    (hlast : last.val = ml.size - 1) :
    (ml.removed i last).entries = SwapFilter.swapRemove ml.entries i.val := by
  have hsize : ml.size ≤ n := hfits
  have hlen := length_entries hfits
  have hz : ml.entries.getLast? = some (ml.move last, ml.score last) := by
    rw [List.getLast?_eq_getElem?, hlen, ← hlast, entries_getElem?, dif_pos last.isLt,
      if_pos (by omega)]
  rw [SwapFilter.swapRemove, hz]
  apply List.ext_getElem?
  intro k
  have hremoved := removed_size (Nat.zero_lt_of_lt hi) i last
  rw [entries_getElem?, hremoved, List.getElem?_dropLast, List.length_set, hlen,
    List.getElem?_set, hlen]
  by_cases hk : k < ml.size - 1
  · rw [dif_pos (by omega), if_pos hk, if_pos hk]
    have hne : (⟨k, by omega⟩ : Fin n) ≠ last := fun he => by
      have := congrArg Fin.val he
      simp only at this
      omega
    by_cases hki : i.val = k
    · rw [if_pos hki, if_pos hi]
      subst hki
      simp [removed, Function.update_of_ne hne]
    · have hne' : (⟨k, by omega⟩ : Fin n) ≠ i := fun he => hki (congrArg Fin.val he).symm
      rw [if_neg hki, entries_getElem?, dif_pos (by omega), if_pos (by omega)]
      simp [removed, Function.update_of_ne hne, Function.update_of_ne hne']
  · rw [if_neg hk]
    simp [hk]

end Round

/-! ## The whole loop -/

section Run

variable {ml : Slots n M} {drop : M → Bool}

/-- **The loop ends without a bug**, and has done what the loop on lists does. -/
theorem filterLoop_spec (hn : n < 2 ^ 31) (fuel : Nat) (i : BitVec 32) (ml : Slots n M)
    (hfits : ml.Fits) (hi : i.toNat ≤ ml.size) (hfuel : ml.size - i.toNat ≤ fuel) :
    ∃ ml', filterLoop drop (fuel + 1) i ml = .done () ml' ∧ ml'.Fits ∧
      ml'.entries = SwapFilter.loop (fun e => !drop e.1) fuel i.toNat ml.entries := by
  have hlen := length_entries hfits
  induction fuel generalizing i ml with
  | zero =>
    refine ⟨ml, filterLoop_exit ?_, hfits, rfl⟩
    rw [BitVec.lt_def]
    show ¬ i.toNat < ml.size
    omega
  | succ fuel ih =>
    rcases Nat.lt_or_ge i.toNat ml.size with h | h
    · have hin : i.toNat < n := h.trans_le hfits
      have helem : ml.entries[i.toNat]? = some (ml.move ⟨i.toNat, hin⟩, ml.score ⟨i.toNat, hin⟩) := by
        rw [entries_getElem?, dif_pos hin, if_pos h]
      rw [SwapFilter.loop, helem]
      cases hd : drop (ml.move ⟨i.toNat, hin⟩) with
      | false =>
        have hnext : (i + 1).toNat = i.toNat + 1 := toNat_succ h
        rw [filterLoop_keep h hin hd, ← hnext]
        simpa [hd] using ih (i + 1) ml hfits (by omega) (by omega) hlen
      | true =>
        have hlast : ml.size - 1 < n := (Nat.sub_lt (Nat.zero_lt_of_lt h) Nat.one_pos).trans_le hfits
        have hsize := removed_size (Nat.zero_lt_of_lt h) ⟨i.toNat, hin⟩ ⟨ml.size - 1, hlast⟩
        have hentries : (ml.removed ⟨i.toNat, hin⟩ ⟨ml.size - 1, hlast⟩).entries =
            SwapFilter.swapRemove ml.entries i.toNat := removed_entries hfits h rfl
        have hfits' : ml.size ≤ n := hfits
        rw [filterLoop_drop h hfits hn hd]
        simp only [hd, Bool.not_true, Bool.false_eq_true, if_false]
        rw [← hentries]
        refine ih i _ ?_ (by rw [hsize]; omega) (by rw [hsize]; omega) (length_entries ?_) <;>
        · unfold Fits
          rw [hsize]
          omega
    · refine ⟨ml, filterLoop_exit ?_, hfits, ?_⟩
      · rw [BitVec.lt_def]
        exact Nat.not_lt.mpr h
      · rw [SwapFilter.loop, List.getElem?_eq_none (by omega)]

/-- **What `filterLoop` leaves**: what the filter in place leaves of the list. -/
theorem filterLoop_run (hn : n < 2 ^ 31) (hfits : ml.Fits) {fuel : Nat} (hfuel : ml.size < fuel) :
    ∃ ml', filterLoop drop fuel 0 ml = .done () ml' ∧ ml'.Fits ∧
      ml'.entries = SwapFilter.run (fun e => !drop e.1) ml.entries := by
  obtain ⟨fuel, rfl⟩ := Nat.exists_eq_succ_of_ne_zero (Nat.ne_zero_of_lt hfuel)
  have hlen := length_entries hfits
  obtain ⟨ml', hrun, hfits', hentries⟩ : ∃ ml', filterLoop drop (fuel + 1) 0 ml = .done () ml' ∧ ml'.Fits ∧
      ml'.entries = SwapFilter.loop (fun e => !drop e.1) fuel 0 ml.entries :=
    filterLoop_spec hn fuel 0 ml hfits (Nat.zero_le _) (Nat.sub_le_of_le_add (by omega))
  refine ⟨ml', hrun, hfits', hentries.trans ?_⟩
  exact SwapFilter.loop_fuel _ (by rw [hlen]; show ml.size - 0 ≤ fuel; omega)
    (by rw [hlen]; exact Nat.sub_le _ _)

end Run

/-- `filter_illegal` comes to its end, as it has time for more rounds than there are moves, without an
index outside the list, and leaves the moves that `p` says, as often as before and each with its
score. -/
def FiltersTo (ml : Slots n M) (isLegal : M → Bool) (p : M → Prop) [DecidablePred p] : Prop :=
  ∀ fuel, ml.size < fuel → ∃ ml', filterIllegal isLegal fuel ml = .done () ml' ∧ ml'.Fits ∧
    ml'.entries.Perm (ml.entries.filter fun e => p e.1)

/-- `filter_illegal_castling` leaves the other moves alone. -/
theorem filterIllegalCastling_run (hn : n < 2 ^ 31) {ml : Slots n M} (hfits : ml.Fits)
    (isCastle isLegal : M → Bool) {fuel : Nat} (hfuel : ml.size < fuel) :
    ∃ ml', filterIllegalCastling isCastle isLegal fuel ml = .done () ml' ∧ ml'.Fits ∧
      ml'.entries.Perm (ml.entries.filter fun e => !isCastle e.1 || isLegal e.1) := by
  obtain ⟨ml', hrun, hfits', hentries⟩ := filterLoop_run hn hfits hfuel
  refine ⟨ml', hrun, hfits', ?_⟩
  simp only [Bool.not_and, Bool.not_not] at hentries
  rw [hentries]
  exact SwapFilter.run_perm _ _

theorem filtersTo (hn : n < 2 ^ 31) {ml : Slots n M} (hfits : ml.Fits) {isLegal : M → Bool}
    {p : M → Prop} [DecidablePred p] (h : ∀ e ∈ ml.entries, isLegal e.1 = true ↔ p e.1) :
    ml.FiltersTo isLegal p := by
  intro fuel hfuel
  obtain ⟨ml', hrun, hfits', hentries⟩ := filterLoop_run hn hfits hfuel
  refine ⟨ml', hrun, hfits', ?_⟩
  have hfilter : ml.entries.filter (fun e => !!isLegal e.1) = ml.entries.filter fun e => p e.1 := by
    refine List.filter_congr fun e he => ?_
    rw [Bool.not_not, Bool.eq_iff_iff, h e he, decide_eq_true_iff]
  rw [hentries, ← hfilter]
  exact SwapFilter.run_perm _ _

end Slots

/-! ## The two programs -/

open Slots

namespace Chess

variable [Build] {b : Board} {pos : Rules.Position}

/-- The loop does what the filter of the board does to the list. -/
theorem filterIllegal_refines {ml : Slots movelistMaxsize Move} {l : Movelist} (hfits : ml.Fits)
    (hl : ml.entries = l.entries) {fuel : Nat} (hfuel : ml.size < fuel) :
    ∃ ml', Slots.filterIllegal b.isLegalMove fuel ml = .done () ml' ∧
      ml'.entries = (b.filterIllegal l).entries := by
  obtain ⟨ml', hrun, _, hentries⟩ := filterLoop_run (by decide) hfits hfuel
  refine ⟨ml', hrun, hentries.trans ?_⟩
  simp only [Bool.not_not, hl]
  rfl

/-- A valid move is legal by the program exactly if it is by the rules. -/
theorem isLegalMove_iff (h : Sim b pos) (hs : Rules.Sane pos) {mov : Move}
    (hvalid : ∃ ply, pos.Pseudo ply ∧ mov = ply.encode) :
    b.isLegalMove mov = true ↔ ∃ ply, pos.Legal ply ∧ mov = ply.encode := by
  constructor
  · intro hl
    obtain ⟨ply, hp, rfl⟩ := hvalid
    exact ⟨ply, ⟨hp, (h.isLegalMove hs hp).mp hl⟩, rfl⟩
  · rintro ⟨ply, hl, rfl⟩
    exact (h.isLegalMove hs hl.1).mpr hl.2

end Chess

namespace Xiangqi

variable [Keys] {b : Board} {pos : Rules.Position}

theorem filterIllegal_refines {ml : Slots movelistMaxsize Move} {l : Movelist} (hfits : ml.Fits)
    (hl : ml.entries = l.entries) {fuel : Nat} (hfuel : ml.size < fuel) :
    ∃ ml', Slots.filterIllegal b.isLegalMove fuel ml = .done () ml' ∧
      ml'.entries = (b.filterIllegal l).entries := by
  obtain ⟨ml', hrun, _, hentries⟩ := filterLoop_run (by decide) hfits hfuel
  refine ⟨ml', hrun, hentries.trans ?_⟩
  simp only [Bool.not_not, hl]
  rfl

theorem isLegalMove_iff (h : Sim b pos) (hs : Rules.Sane pos) {mov : Move}
    (hvalid : ∃ ply, pos.Pseudo ply ∧ mov = ply.encode) :
    b.isLegalMove mov = true ↔ ∃ ply, pos.Legal ply ∧ mov = ply.encode := by
  constructor
  · intro hl
    obtain ⟨ply, hp, rfl⟩ := hvalid
    exact ⟨ply, (h.isLegalMove hs hp).mp hl, rfl⟩
  · rintro ⟨ply, hl, rfl⟩
    exact (h.isLegalMove hs hl.1).mpr hl

end Xiangqi

open Classical in
/-- **Filtering keeps exactly the legal moves**, in both programs: those that `is_legal` accepts, on
any board, and of the valid moves those that the rules allow, on a sane one. -/
theorem filterIllegal_exact :
    (∀ [Chess.Build] (b : Chess.Board) (ml : Slots Chess.movelistMaxsize Chess.Move), ml.Fits →
      ml.FiltersTo b.isLegalMove (fun mov => b.isLegalMove mov = true) ∧
      ∀ pos, Chess.Sim b pos → Chess.Rules.Sane pos →
        (∀ e ∈ ml.entries, ∃ ply, pos.Pseudo ply ∧ e.1 = ply.encode) →
        ml.FiltersTo b.isLegalMove (fun mov => ∃ ply, pos.Legal ply ∧ mov = ply.encode)) ∧
    (∀ [Xiangqi.Keys] (b : Xiangqi.Board) (ml : Slots Xiangqi.movelistMaxsize Xiangqi.Move), ml.Fits →
      ml.FiltersTo b.isLegalMove (fun mov => b.isLegalMove mov = true) ∧
      ∀ pos, Xiangqi.Sim b pos → Xiangqi.Rules.Sane pos →
        (∀ e ∈ ml.entries, ∃ ply, pos.Pseudo ply ∧ e.1 = ply.encode) →
        ml.FiltersTo b.isLegalMove (fun mov => ∃ ply, pos.Legal ply ∧ mov = ply.encode)) := by
  refine ⟨fun b ml hfits => ⟨?_, ?_⟩, fun b ml hfits => ⟨?_, ?_⟩⟩
  · exact filtersTo (by decide) hfits fun _ _ => Iff.rfl
  · intro pos h hs hvalid
    exact filtersTo (by decide) hfits fun e he => Chess.isLegalMove_iff h hs (hvalid e he)
  · exact filtersTo (by decide) hfits fun _ _ => Iff.rfl
  · intro pos h hs hvalid
    exact filtersTo (by decide) hfits fun e he => Xiangqi.isLegalMove_iff h hs (hvalid e he)

/-- The rook that stands between its king and a rook may go to `e3` and not to `d2`, which is in the
list as the first and as the last move. -/
def rookMoves : Slots Chess.movelistMaxsize Chess.Move where
  move i := (Chess.Rules.Ply.move 12 (if i.val = 1 then 20 else 11) .rook none).encode
  score i := i.val
  nextin := 3

open Classical in
theorem filterIllegal_rookMoves : rookMoves.FiltersTo
    (@Chess.Board.isLegalMove Chess.sampleBuild (@Chess.Board.runOps Chess.sampleBuild .clear Chess.rookPin))
    (fun mov => @Chess.Board.isLegalMove Chess.sampleBuild
      (@Chess.Board.runOps Chess.sampleBuild .clear Chess.rookPin) mov = true) :=
  ((@filterIllegal_exact.1 Chess.sampleBuild) _ rookMoves (show 3 ≤ 256 by omega)).1

/-- A list with nothing to keep, which the loop leaves at the index 0. -/
example : (Slots.filterLoop (n := 4) (fun m : Nat => m % 2 = 1) 4 0
    ⟨fun i => 2 * i + 1, fun i => i, 3⟩ matches
    .done () ⟨_, _, 0⟩) = true := by rfl

end HoiChess
