import HoiChess.Common.Book
import HoiChess.Common.Game

/-!
# The book is a hash map

Which slots the book looks at for a key depends on the key and on the size alone (`path`),
so the slots are a table with open addressing.  `lookup` and `put` stop where a probe of
that table stops (`lookup_eq`, `put_eq`), and a book that is filled by calls of `put`
answers with the last entry that was put for the key (`filled_isMap`).
-/

namespace HoiChess

open Probing

namespace Book

variable {Brd Mov : Type} [BookMove Mov] {b : Book Mov} {n : Nat}

/-- A book of `n` slots in the byte order of the host, all of them written. -/
structure Sized (n : Nat) (b : Book Mov) : Prop where
  two_le : 2 ≤ n
  lt : n < 2 ^ 32
  size : b.header.size.toNat = n
  host : b.swapByteorder = false
  written : ∀ slot < n, (b.file.slots slot).isSome

/-- The slot of the `i`-th round. -/
def hash (n : Nat) (k : BitVec 64) (i : Nat) : Nat := (k.toNat % n + i * (k.toNat % (n - 1))) % n

/-- The slots of all rounds. -/
def path (n : Nat) (k : BitVec 64) : List Nat := (List.range n).map (hash n k)

/-- What stands in the slots; an entry without moves is nothing. -/
def table (b : Book Mov) (slot : Nat) : Option (BookEntry Mov) :=
  (b.file.slots slot).filter (fun e => !e.isEmpty)

/-- The book after an entry was written. -/
def withEntry (b : Book Mov) (slot : Nat) (e : BookEntry Mov) : Book Mov :=
  { b with file := { b.file with slots := Function.update b.file.slots slot (some e) } }

theorem hash_lt (h : 2 ≤ n) (k : BitVec 64) (i : Nat) : hash n k i < n :=
  Nat.mod_lt _ (by omega)

theorem writeEntry_host (hhost : b.swapByteorder = false) {slot : Nat}
    (hs : slot < b.header.size.toNat) (e : BookEntry Mov) :
    b.writeEntry slot e = some (b.withEntry slot e) := by
  have he : e.h2b b.swapByteorder = e := by rw [hhost]; rfl
  unfold writeEntry
  rw [if_neg (by omega), he]
  rfl

namespace Sized

omit [BookMove Mov] in
/-- **The sum never wraps around.** -/
theorem hashfunc_eq (h : b.Sized n) (k : BitVec 64) {i : Nat} (hi : i < n) :
    b.hashfunc k i = some (hash n k i) := by
  have h2 := h.two_le
  have hmax := h.lt
  have ha : k.toNat % n ≤ n - 1 := Nat.le_sub_one_of_lt (Nat.mod_lt _ (by omega))
  have hb : k.toNat % (n - 1) ≤ n - 1 := (Nat.mod_lt _ (by omega)).le
  have hmul : i * (k.toNat % (n - 1)) ≤ (2 ^ 32 - 2) * (2 ^ 32 - 2) :=
    Nat.mul_le_mul (by omega) (by omega)
  have hsum : k.toNat % n + i * (k.toNat % (n - 1)) < 2 ^ 64 := by omega
  unfold hashfunc
  rw [h.size, if_neg (by omega), Nat.mod_eq_of_lt hsum]
  rfl

theorem readEntry_eq (h : b.Sized n) {slot : Nat} (hs : slot < n) :
    b.readEntry slot = b.file.slots slot := by
  unfold readEntry
  rw [h.size, if_neg (by omega), h.host]
  have hid : (fun e : BookEntry Mov => e.b2h false) = id := funext fun e => rfl
  rw [hid, Option.map_id, id]

theorem writeEntry_eq (h : b.Sized n) {slot : Nat} (hs : slot < n) (e : BookEntry Mov) :
    b.writeEntry slot e = some (b.withEntry slot e) :=
  writeEntry_host h.host (by rw [h.size]; exact hs) e

/-- The entry that a round reads. -/
theorem round (h : b.Sized n) (k : BitVec 64) {i : Nat} (hi : i < n) :
    ∃ e, b.file.slots (hash n k i) = some e ∧
      b.hashfunc k i = some (hash n k i) ∧ b.readEntry (hash n k i) = some e := by
  have hlt := hash_lt h.two_le k i
  obtain ⟨e, he⟩ := Option.isSome_iff_exists.mp (h.written _ hlt)
  exact ⟨e, he, h.hashfunc_eq k hi, (h.readEntry_eq hlt).trans he⟩

end Sized

/-! ## The loops are probes -/

theorem path_from (n : Nat) (k : BitVec 64) (m i : Nat) :
    (List.range' i (m + 1)).map (hash n k) = hash n k i :: (List.range' (i + 1) m).map (hash n k) := by
  rw [List.range'_succ, List.map_cons]

theorem path_eq (n : Nat) (k : BitVec 64) : path n k = (List.range' 0 n).map (hash n k) := by
  rw [path, List.range_eq_range']

theorem table_of_empty {slot : Nat} {e : BookEntry Mov} (hs : b.file.slots slot = some e)
    (he : e.isEmpty = true) : b.table slot = none := by
  simp [table, hs, he]

theorem table_of_entry {slot : Nat} {e : BookEntry Mov} (hs : b.file.slots slot = some e)
    (he : e.isEmpty = false) : b.table slot = some e := by
  simp [table, hs, he]

theorem open_of_empty {slot : Nat} {k : BitVec 64} (ht : b.table slot = none) :
    Open BookEntry.hashkey b.table k slot = true := by
  simp [Open, ht]

theorem open_of_entry {slot : Nat} {e : BookEntry Mov} {k : BitVec 64} (ht : b.table slot = some e) :
    Open BookEntry.hashkey b.table k slot = decide (e.hashkey = k) := by
  simp [Open, ht]

section Lookup

variable [BookBoard Brd Mov]

/-- What `lookup` returns, given the entry of the key in the table. -/
def Answers (board : Brd) (found : Option (BookEntry Mov)) (result : Bool × BookEntry Mov) : Prop :=
  match found with
  | none => result.1 = false
  | some e => result = (e.isValidAndLegal board, e)

theorem lookupLoop_answers (h : b.Sized n) (board : Brd) {m i : Nat} (hm : i + m ≤ n)
    (entry : BookEntry Mov) :
    ∃ result, b.lookupLoop board m i entry = some result ∧
      Answers board (Probing.lookup BookEntry.hashkey b.table (BookBoard.hashkey board)
        ((List.range' i m).map (hash n (BookBoard.hashkey board)))) result := by
  induction m generalizing i entry with
  | zero => exact ⟨_, rfl, rfl⟩
  | succ m ih =>
    obtain ⟨e, hs, hh, hr⟩ := h.round (BookBoard.hashkey board) (i := i) (by omega)
    unfold lookupLoop
    rw [hh, Option.bind_some, hr, path_from]
    simp only [Probing.lookup, probe, List.find?_cons]
    cases he : e.isEmpty with
    | true =>
      rw [open_of_empty (table_of_empty hs he)]
      exact ⟨_, rfl, by simp [Answers, table_of_empty hs he]⟩
    | false =>
      have ht := table_of_entry hs he
      rw [open_of_entry ht]
      by_cases hk : e.hashkey = BookBoard.hashkey board
      · refine ⟨(e.isValidAndLegal board, e), ?_, by simp [Answers, hk, ht]⟩
        cases hv : e.isValidAndLegal board <;> simp [hk]
      · simp only [hk, decide_false, ne_eq, not_false_eq_true, if_true, Bool.false_eq_true, if_false]
        exact ih (by omega) e

/-- **`lookup` is a probe of the table.** -/
theorem lookup_answers (h : b.Sized n) (board : Brd) (entry : BookEntry Mov) :
    ∃ result, b.lookup board entry = some result ∧
      Answers board (Probing.lookup BookEntry.hashkey b.table (BookBoard.hashkey board)
        (path n (BookBoard.hashkey board))) result := by
  rw [path_eq]
  unfold lookup
  rw [h.size]
  exact lookupLoop_answers h board (by omega) entry

end Lookup

theorem putLoop_eq (h : b.Sized n) (e : BookEntry Mov) {m i : Nat} (hm : i + m = n) (hpos : 0 < m)
    (slot : Nat) :
    b.putLoop e m i slot = some (probe BookEntry.hashkey b.table e.hashkey
      ((List.range' i m).map (hash n e.hashkey))) := by
  induction m generalizing i slot with
  | zero => cases hpos
  | succ m ih =>
    obtain ⟨old, hs, hh, hr⟩ := h.round e.hashkey (i := i) (by omega)
    unfold putLoop
    rw [hh, path_from]
    simp only [hr, probe, List.find?_cons]
    cases hold : old.isEmpty with
    | true => simp [open_of_empty (table_of_empty hs hold)]
    | false =>
      have ht := table_of_entry hs hold
      rw [open_of_entry ht]
      by_cases hk : old.hashkey = e.hashkey
      · simp [hk]
      · simp only [hk, decide_false, ne_eq, not_false_eq_true, if_true, Bool.false_eq_true, if_false]
        rw [h.size]
        rcases Nat.eq_zero_or_pos m with rfl | hmpos
        · rw [if_pos (by omega)]
          rfl
        · rw [if_neg (by omega)]
          exact ih (by omega) hmpos _

/-- **`put` writes where a probe of the table stops.** -/
theorem put_eq (h : b.Sized n) (e : BookEntry Mov) :
    b.put e = match probe BookEntry.hashkey b.table e.hashkey (path n e.hashkey) with
      | none => some (b, false)
      | some slot => (b.writeEntry slot e).map (fun b => (b, true)) := by
  have h2 := h.two_le
  unfold put
  rw [h.size, putLoop_eq h e (by omega) (by omega), path_eq]
  cases probe BookEntry.hashkey b.table e.hashkey ((List.range' 0 n).map (hash n e.hashkey)) <;> rfl

/-! ## Filling a book -/

/-- A new book: all slots below `m` are wiped out. -/
theorem create_upto (Mov : Type) [BookMove Mov] (n : Nat) {m : Nat} (hm : m ≤ n) (hn : n < 2 ^ 32) :
    ∃ b : Book Mov, (List.range m).foldlM (fun b slot => b.writeEntry slot .blank)
        (⟨⟨BookHeader.h2b ⟨BitVec.ofNat 32 n, BookMove.magic Mov⟩ false, fun _ => none⟩, false,
          ⟨BitVec.ofNat 32 n, BookMove.magic Mov⟩⟩ : Book Mov) = some b ∧
      b.header.size.toNat = n ∧ b.swapByteorder = false ∧
      ∀ slot, b.file.slots slot = if slot < m then some .blank else none := by
  induction m with
  | zero => exact ⟨_, rfl, Nat.mod_eq_of_lt hn, rfl, fun slot => rfl⟩
  | succ m ih =>
    obtain ⟨b, hb, hsize, hhost, hslots⟩ := ih (by omega)
    rw [List.range_succ, List.foldlM_append, hb]
    have hwrite : b.writeEntry m .blank = some (b.withEntry m .blank) :=
      writeEntry_host hhost (by omega) .blank
    refine ⟨b.withEntry m .blank, by simp [hwrite], hsize, hhost, fun slot => ?_⟩
    simp only [withEntry, Function.update_apply, hslots]
    by_cases he : slot = m
    · rw [if_pos he, if_pos (by omega)]
    · rw [if_neg he]
      split
      · rw [if_pos (by omega)]
      · rw [if_neg (by omega)]

theorem blank_isEmpty : (BookEntry.blank : BookEntry Mov).isEmpty = true := by
  simp [BookEntry.isEmpty, BookEntry.blank]

theorem create_sized (Mov : Type) [BookMove Mov] {n : Nat} (h2 : 2 ≤ n) (hn : n < 2 ^ 32) :
    ∃ b, create Mov n = some b ∧ b.Sized n ∧ b.table = fun _ => none := by
  obtain ⟨b, hb, hsize, hhost, hslots⟩ := create_upto Mov n (le_refl n) hn
  refine ⟨b, hb, ⟨h2, hn, hsize, hhost, fun slot hs => ?_⟩, funext fun slot => ?_⟩
  · rw [hslots, if_pos hs]
    rfl
  · unfold table
    rw [hslots]
    split
    · simp [blank_isEmpty]
    · rfl

/-- Writing an entry with moves changes the table in one slot. -/
theorem table_write (e : BookEntry Mov) (he : e.isEmpty = false) (slot : Nat) :
    (b.withEntry slot e).table = Function.update b.table slot (some e) := by
  funext s
  simp only [table, withEntry, Function.update_apply]
  split
  · simp [he]
  · rfl

/-- What a call of `put` does. -/
theorem Sized.put_cases (h : b.Sized n) {e : BookEntry Mov} (he : e.isEmpty = false) :
    (b.put e = some (b, false) ∧
      probe BookEntry.hashkey b.table e.hashkey (path n e.hashkey) = none) ∨
    ∃ b' slot, b.put e = some (b', true) ∧ b'.Sized n ∧
      probe BookEntry.hashkey b.table e.hashkey (path n e.hashkey) = some slot ∧
      b'.file.slots = Function.update b.file.slots slot (some e) ∧
      b'.table = Function.update b.table slot (some e) := by
  cases hp : probe BookEntry.hashkey b.table e.hashkey (path n e.hashkey) with
  | none => exact .inl ⟨by rw [put_eq h, hp], rfl⟩
  | some slot =>
    have hmem : slot ∈ path n e.hashkey := List.mem_of_find?_eq_some hp
    obtain ⟨i, _, rfl⟩ := List.mem_map.mp hmem
    have hlt := hash_lt h.two_le e.hashkey i
    have hput : b.put e = some (b.withEntry (hash n e.hashkey i) e, true) := by
      rw [put_eq h, hp]
      simp [h.writeEntry_eq hlt e]
    refine .inr ⟨b.withEntry (hash n e.hashkey i) e, _, hput,
      ⟨h.two_le, h.lt, h.size, h.host, fun s hs => ?_⟩, rfl, rfl, table_write e he _⟩
    simp only [withEntry, Function.update_apply]
    split
    · rfl
    · exact h.written s hs

/-- Created with `n` slots and filled by calls of `put`, the last one first, each with
what it returned. -/
inductive Filled (n : Nat) : Book Mov → List (BookEntry Mov × Bool) → Prop
  | create {b : Book Mov} : create Mov n = some b → Filled n b []
  | put {b b' : Book Mov} {calls : List (BookEntry Mov × Bool)} {e : BookEntry Mov} {ok : Bool} :
    Filled n b calls → e.isEmpty = false → b.put e = some (b', ok) → Filled n b' ((e, ok) :: calls)

/-- The entry of the last successful call for the key. -/
def lastPut (calls : List (BookEntry Mov × Bool)) (k : BitVec 64) : Option (BookEntry Mov) :=
  (calls.find? (fun call => call.2 && call.1.hashkey = k)).map Prod.fst

/-- The table of a filled book is threaded and holds the last entries. -/
theorem Filled.spec (h2 : 2 ≤ n) (hn : n < 2 ^ 32) {calls : List (BookEntry Mov × Bool)}
    (h : Filled n b calls) : b.Sized n ∧ Threaded BookEntry.hashkey (path n) b.table ∧
      ∀ k, Probing.lookup BookEntry.hashkey b.table k (path n k) = lastPut calls k := by
  induction h with
  | create hb =>
    obtain ⟨b', hb', hsized, htable⟩ := create_sized Mov h2 hn
    obtain rfl := Option.some.inj (hb.symm.trans hb')
    rw [htable]
    refine ⟨hsized, threaded_empty, fun k => ?_⟩
    unfold Probing.lookup
    cases probe BookEntry.hashkey (fun _ => (none : Option (BookEntry Mov))) k (path n k) <;> rfl
  | put _ he hput ih =>
    obtain ⟨hsized, hthread, hlook⟩ := ih
    rcases hsized.put_cases he with ⟨hp, hnone⟩ | ⟨b'', slot, hp, hsized', hprobe, _, htable⟩
    · obtain ⟨rfl, rfl⟩ := Prod.mk.inj (Option.some.inj (hp.symm.trans hput))
      exact ⟨hsized, hthread, fun k => by rw [hlook]; simp [lastPut]⟩
    · obtain ⟨rfl, rfl⟩ := Prod.mk.inj (Option.some.inj (hp.symm.trans hput))
      rw [htable]
      refine ⟨hsized', hthread.put hprobe, fun k => ?_⟩
      rw [hthread.lookup_put hprobe, hlook]
      unfold lastPut
      rw [List.find?_cons]
      split
      · rename_i hk
        simp [hk]
      · rename_i hk
        simp [hk]

/-- What a hash map of entries has to do. -/
structure IsMap (Brd : Type) [BookBoard Brd Mov] (n : Nat) (b : Book Mov)
    (calls : List (BookEntry Mov × Bool)) : Prop where
  probed : ∀ k i, i < n → ∃ slot, b.hashfunc k i = some slot ∧ slot < b.header.size.toNat
  put : ∀ e : BookEntry Mov, e.isEmpty = false → ∃ b' ok, b.put e = some (b', ok) ∧
    (ok = false → b' = b) ∧
    ∀ slot old, b.file.slots slot = some old → old.isEmpty = false → old.hashkey ≠ e.hashkey →
      b'.file.slots slot = some old
  lookup : ∀ (board : Brd) (entry : BookEntry Mov), ∃ result, b.lookup board entry = some result ∧
    Answers board (lastPut calls (BookBoard.hashkey board)) result

/-- **A book is a correct hash map**, whatever is put into it. -/
theorem filled_isMap [BookBoard Brd Mov] (h2 : 2 ≤ n) (hn : n < 2 ^ 32)
    {calls : List (BookEntry Mov × Bool)} (h : Filled n b calls) : IsMap Brd n b calls := by
  obtain ⟨hsized, hthread, hlook⟩ := h.spec h2 hn
  constructor
  · intro k i hi
    exact ⟨_, hsized.hashfunc_eq k hi, by rw [hsized.size]; exact hash_lt h2 k i⟩
  · intro e he
    rcases hsized.put_cases he with ⟨hp, _⟩ | ⟨b', slot, hp, _, hprobe, hslots, _⟩
    · exact ⟨b, false, hp, fun _ => rfl, fun slot old hs _ _ => hs⟩
    · refine ⟨b', true, hp, fun hfalse => Bool.noConfusion hfalse, fun s old hs hold hk => ?_⟩
      rw [hslots, Function.update_of_ne, hs]
      rintro rfl
      have ht := table_of_entry hs hold
      rcases open_of_probe hprobe with hfree | ⟨e', he', hk'⟩
      · rw [ht] at hfree
        cases hfree
      · obtain rfl := Option.some.inj (ht.symm.trans he')
        exact hk hk'
  · intro board entry
    rw [← hlook]
    exact lookup_answers hsized board entry

/-- In a book of two slots the advance of the king's pawn is found on the opening board. -/
theorem isMap_kingsPawn : ∃ board b e, @Chess.Board.parseFen Chess.sampleBuild Chess.openingFen =
      .accepted board ∧ Filled 2 b [(e, true)] ∧ e.hashkey = board.hashkey ∧
    @lookup _ _ _ b (@instBookBoardBoardMoveOfBuild Chess.sampleBuild) board .blank =
      some (true, e) := by
  let _ := Chess.sampleBuild
  obtain ⟨board, hboard, hvalid, hlegal⟩ := Game.kingsPawn_asserted
  obtain ⟨b, hcreate, hsized, htable⟩ := create_sized Chess.Move (le_refl 2) (by decide)
  let e : BookEntry Chess.Move := ⟨board.hashkey, #v[Game.kingsPawn, .noMove, .noMove, .noMove],
    #v[1#32, 0#32, 0#32, 0#32]⟩
  have he : e.isEmpty = false := by
    have hne : Game.kingsPawn ≠ .noMove := by decide
    exact decide_eq_false hne
  rcases hsized.put_cases he with ⟨_, hnone⟩ | ⟨b', _, hput, _⟩
  · rw [htable] at hnone
    cases hnone
  · have hfilled : Filled 2 b' [(e, true)] := .put (.create hcreate) he hput
    have hmap : IsMap Chess.Board 2 b' [(e, true)] := filled_isMap (le_refl 2) (by decide) hfilled
    obtain ⟨result, hlook, hanswer⟩ := hmap.lookup board .blank
    have hlast : lastPut [(e, true)] (BookBoard.hashkey board) = some e := by
      simp [lastPut, e, BookBoard.hashkey]
    have hmoves : (#v[Game.kingsPawn, .noMove, .noMove, .noMove] : Vector Chess.Move 4).toList.takeWhile
        (fun mov => mov ≠ BookMove.noMove) = [Game.kingsPawn] := by decide
    have hlegal' : e.isValidAndLegal board = true := by
      rw [BookEntry.isValidAndLegal, show e.move = _ from rfl, hmoves]
      exact (Bool.and_true _).trans ((Bool.and_eq_true _ _).mpr ⟨hvalid, hlegal⟩)
    rw [hlast] at hanswer
    refine ⟨board, b', e, hboard, hfilled, rfl, ?_⟩
    rw [hlook, show result = _ from hanswer, hlegal']

end Book

end HoiChess
