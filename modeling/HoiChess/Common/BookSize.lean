import HoiChess.Common.BookBuild

/-!
# The size of a new book

The second half of `create_from_pgn` keeps the moves that were played often enough, makes
an entry of every position that is left with a move, and creates a book with a tenth more slots
than there are entries.  `hashfunc` divides by the size and by the size less one.  Only
a single entry leads to a size at which one of these is zero, since 1.1 is rounded down to 1
(`createFromPgn_divides_iff`).
-/

namespace HoiChess

/-! ## Double precision -/

/-- A natural number in double precision: 53 significant bits, ties to even. -/
def roundDouble (m : Nat) : Nat :=
  let unit := 2 ^ (m.log2 - 52)
  let q := m / unit
  let r := m % unit
  if unit < 2 * r ∨ (unit = 2 * r ∧ q % 2 = 1) then (q + 1) * unit else q * unit

/-- `(unsigned long) (booksize * 1.1)`; the factor is 4953959590107546 / 2⁵². -/
def extBooksize (booksize : Nat) : Nat :=
  roundDouble (4953959590107546 * roundDouble booksize) / 2 ^ 52

/-- Rounding does not go below a power of two. -/
theorem le_roundDouble {m k : Nat} (h : 2 ^ k ≤ m) : 2 ^ k ≤ roundDouble m := by
  have hm : m ≠ 0 := by
    have hpow := Nat.two_pow_pos k
    omega
  have hk : k ≤ m.log2 := (Nat.le_log2 hm).mpr h
  have hself : 2 ^ m.log2 ≤ m := Nat.log2_self_le hm
  have hq : 2 ^ m.log2 ≤ m / 2 ^ (m.log2 - 52) * 2 ^ (m.log2 - 52) := by
    have hsplit : 2 ^ m.log2 = 2 ^ (m.log2 - (m.log2 - 52)) * 2 ^ (m.log2 - 52) := by
      rw [← pow_add]
      congr 1
      omega
    rw [hsplit]
    refine Nat.mul_le_mul_right _ ?_
    rw [Nat.le_div_iff_mul_le (Nat.two_pow_pos _), ← hsplit]
    exact hself
  have hpow : 2 ^ k ≤ 2 ^ m.log2 := Nat.pow_le_pow_right (by decide) hk
  unfold roundDouble
  simp only
  split
  · rw [Nat.succ_mul]
    omega
  · omega

theorem extBooksize_zero : extBooksize 0 = 0 := by decide

theorem extBooksize_one : extBooksize 1 = 1 := by decide

theorem two_le_extBooksize {n : Nat} (h : 2 ≤ n) : 2 ≤ extBooksize n := by
  have hround : 2 ^ 1 ≤ roundDouble n := le_roundDouble h
  have hproduct : 2 ^ 53 ≤ 4953959590107546 * roundDouble n :=
    calc 2 ^ 53
      _ ≤ 4953959590107546 * 2 ^ 1 := by decide
      _ ≤ 4953959590107546 * roundDouble n := Nat.mul_le_mul_left _ hround
  exact (Nat.le_div_iff_mul_le (Nat.two_pow_pos 52)).mpr (le_roundDouble hproduct)

attribute [local irreducible] extBooksize

/-! ## The entries -/

/-- What `std::sort` does: some permutation in which nothing stands before what is less. -/
structure Sorting (A : Type) (less : A → A → Prop) where
  sort : List A → List A
  perm : ∀ l, (sort l).Perm l
  sorted : ∀ l, (sort l).Pairwise (fun a b => ¬ less b a)

/-- Descendingly by the number of occurrences. -/
def moreFrequent {Mov : Type} (a b : Mov × BitVec 32) : Prop := b.2 < a.2

namespace BookEntry

variable {Mov : Type} [BookMove Mov]

/-- `BookEntry(hashkey, moves)` -/
def ofMoves (hashkey : BitVec 64) (moves : List (Mov × BitVec 32)) : BookEntry Mov where
  hashkey := hashkey
  move := Vector.ofFn fun i => (moves[i.val]?).elim BookMove.noMove Prod.fst
  count := Vector.ofFn fun i => (moves[i.val]?).elim 0#32 Prod.snd

theorem isEmpty_ofMoves {hashkey : BitVec 64} {moves : List (Mov × BitVec 32)}
    (h : ∀ e ∈ moves, e.1 ≠ BookMove.noMove) :
    (ofMoves hashkey moves).isEmpty = true ↔ moves = [] := by
  unfold isEmpty ofMoves
  simp only [Vector.getElem_ofFn, decide_eq_true_eq]
  cases moves with
  | nil => simp
  | cons e moves => simpa using h e List.mem_cons_self

end BookEntry

namespace Book

section Entries

variable {Mov : Type} [BookMove Mov] [MoveOrder Mov] (sorting : Sorting (Mov × BitVec 32) moreFrequent)

/-- `group_moves(moves, min_move_count)`; the counts are `unsigned int`. -/
def groupMoves (moves : List Mov) (minMoveCount : BitVec 32) : List (Mov × BitVec 32) :=
  let count : OrderedMap Mov (BitVec 32) MoveOrder.less :=
    moves.foldl (fun count mov => count.update 0#32 mov (· + 1#32)) .empty
  sorting.sort (count.entries.filter (fun e => minMoveCount ≤ e.2))

/-- One entry for each position in which a move is left. -/
def bookEntries (pgnmap : PgnMap Mov) (minMoveCount : BitVec 32) : List (BookEntry Mov) :=
  (pgnmap.entries.map fun e => BookEntry.ofMoves e.1 (groupMoves sorting e.2 minMoveCount)).filter
    (fun entry => !entry.isEmpty)

/-- The moves that are kept, with their counts. -/
theorem mem_groupMoves {moves : List Mov} {minMoveCount : BitVec 32} {e : Mov × BitVec 32} :
    e ∈ groupMoves sorting moves minMoveCount ↔
      (e.1 ∈ moves ∧ e.2 = BitVec.ofNat 32 (moves.count e.1)) ∧ minMoveCount ≤ e.2 := by
  obtain ⟨mov, cnt⟩ := e
  have hcount : ∀ (l : List Mov) (init : BitVec 32),
      l.foldl (fun cnt _ => cnt + 1#32) init = init + BitVec.ofNat 32 l.length := by
    intro l
    induction l with
    | nil => simp
    | cons m l ih =>
      intro init
      rw [List.foldl_cons, ih, List.length_cons, BitVec.ofNat_add, BitVec.add_assoc, BitVec.add_comm 1#32]
  have hfind := @OrderedMap.find_collect _ _ _ MoveOrder.less _ _ _ 0#32 id (fun cnt (_ : Mov) => cnt + 1#32)
    moves mov
  rw [hcount, BitVec.zero_add, ← List.countP_eq_length_filter] at hfind
  rw [groupMoves, (sorting.perm _).mem_iff, List.mem_filter, OrderedMap.mem_entries_iff,
    decide_eq_true_eq, and_congr_left_iff]
  intro _
  refine (iff_of_eq (congrArg (· = some cnt) hfind)).trans ?_
  have hnil : moves.filter (id · = mov) = [] ↔ mov ∉ moves := by
    rw [List.filter_eq_nil_iff]
    constructor
    · intro h hmem
      exact h mov hmem (by simp)
    · rintro h m hmem hm
      exact h (of_decide_eq_true hm ▸ hmem)
  have hsame : moves.countP (id · = mov) = moves.count mov :=
    List.countP_congr fun m _ => by simp
  rw [hsame]
  split
  · rename_i h
    simp [hnil.mp h]
  · rename_i h
    have hmem : mov ∈ moves := by
      by_contra hne
      exact h (hnil.mpr hne)
    simp [hmem, eq_comm]

/-- Some move was played often enough in the positions with that key. -/
def Survives (minMoveCount : BitVec 32) (l : List (BitVec 64 × Mov)) (k : BitVec 64) : Prop :=
  ∃ mov ∈ movesAt k l, minMoveCount ≤ BitVec.ofNat 32 ((movesAt k l).count mov)

theorem groupMoves_eq_nil_iff {k : BitVec 64} {minMoveCount : BitVec 32} {l : List (BitVec 64 × Mov)} :
    groupMoves sorting (movesAt k l) minMoveCount = [] ↔ ¬ Survives minMoveCount l k := by
  rw [List.eq_nil_iff_forall_not_mem]
  constructor
  · rintro h ⟨mov, hmem, hmin⟩
    exact h (mov, _) ((mem_groupMoves sorting).mpr ⟨⟨hmem, rfl⟩, hmin⟩)
  · intro h e he
    obtain ⟨⟨hmem, hcount⟩, hmin⟩ := (mem_groupMoves sorting).mp he
    exact h ⟨e.1, hmem, hcount ▸ hmin⟩

/-- **The keys of the entries are those that survive**, each once. -/
theorem bookEntries_keys {minMoveCount : BitVec 32} {l : List (BitVec 64 × Mov)}
    (h : ∀ e ∈ l, e.2 ≠ BookMove.noMove) :
    ((bookEntries sorting (l.foldl pushBack .empty) minMoveCount).map BookEntry.hashkey).Nodup ∧
      ∀ k, k ∈ (bookEntries sorting (l.foldl pushBack .empty) minMoveCount).map BookEntry.hashkey ↔
        Survives minMoveCount l k := by
  constructor
  · have hkeys := OrderedMap.nodup_keys (l.foldl pushBack (.empty : PgnMap Mov))
    refine List.Nodup.sublist (List.Sublist.map _ List.filter_sublist) ?_
    rw [List.map_map]
    exact hkeys
  · intro k
    have hentry : ∀ k ms, (k, ms) ∈ (l.foldl pushBack (.empty : PgnMap Mov)).entries ↔
        ms = movesAt k l ∧ ms ≠ [] := by
      intro k ms
      rw [OrderedMap.mem_entries_iff, find_pushBack]
      split
      · rename_i hnil
        simp [hnil]
      · rename_i hnil
        constructor
        · intro he
          obtain rfl := Option.some.inj he
          exact ⟨rfl, hnil⟩
        · rintro ⟨rfl, _⟩
          rfl
    have hempty : ∀ k, (BookEntry.ofMoves k (groupMoves sorting (movesAt k l) minMoveCount)).isEmpty =
        true ↔ ¬ Survives minMoveCount l k := by
      intro k
      rw [← groupMoves_eq_nil_iff sorting, BookEntry.isEmpty_ofMoves]
      intro e he
      obtain ⟨⟨hmem, _⟩, _⟩ := (mem_groupMoves sorting).mp he
      obtain ⟨e', he', hmov⟩ := List.mem_map.mp hmem
      exact hmov ▸ h e' (List.mem_filter.mp he').1
    simp only [bookEntries, List.mem_map, List.mem_filter, Bool.not_eq_true', ← Bool.not_eq_true]
    constructor
    · rintro ⟨_, ⟨⟨⟨k', ms⟩, he, rfl⟩, hfull⟩, rfl⟩
      obtain ⟨rfl, _⟩ := (hentry k' ms).mp he
      rw [hempty, not_not] at hfull
      exact hfull
    · intro hs
      refine ⟨_, ⟨⟨(k, movesAt k l), (hentry k _).mpr ⟨rfl, ?_⟩, rfl⟩, ?_⟩, rfl⟩
      · obtain ⟨mov, hmem, _⟩ := hs
        exact List.ne_nil_of_mem hmem
      · rw [hempty, not_not]
        exact hs

/-- There is a single entry exactly if a single key survives. -/
theorem bookEntries_length_eq_one_iff {minMoveCount : BitVec 32} {l : List (BitVec 64 × Mov)}
    (h : ∀ e ∈ l, e.2 ≠ BookMove.noMove) :
    (bookEntries sorting (l.foldl pushBack .empty) minMoveCount).length = 1 ↔
      ∃! k, Survives minMoveCount l k := by
  obtain ⟨hnodup, hmem⟩ : ((bookEntries sorting (l.foldl pushBack .empty) minMoveCount).map
      BookEntry.hashkey).Nodup ∧ _ := bookEntries_keys sorting h
  rw [← List.length_map BookEntry.hashkey, ← List.toFinset_card_of_nodup hnodup,
    Finset.card_eq_one_iff_existsUnique]
  simp only [List.mem_toFinset, hmem]

end Entries

/-! ## When `hashfunc` is called -/

section HashCalls

variable {Brd Mov : Type} [BookMove Mov] {b : Book Mov}

/-- The rounds in which the loops of `lookup` and `put` call `hashfunc`, with `n` rounds to go. -/
def hashCalls (b : Book Mov) (hashkey : BitVec 64) : Nat → Nat → List Nat
  | 0, _ => []
  | n + 1, i =>
    i :: match (b.hashfunc hashkey i).bind b.readEntry with
      | none => []
      | some entry =>
        if entry.isEmpty then []
        else if entry.hashkey ≠ hashkey then hashCalls b hashkey n (i + 1)
        else []

/-- **`lookup` fails only in one of these calls**, or in reading the slot that it returns. -/
theorem lookupLoop_eq_none_iff [BookBoard Brd Mov] (board : Brd) (n i : Nat) (entry : BookEntry Mov) :
    b.lookupLoop board n i entry = none ↔
      ∃ j ∈ b.hashCalls (BookBoard.hashkey board) n i,
        (b.hashfunc (BookBoard.hashkey board) j).bind b.readEntry = none := by
  induction n generalizing i entry with
  | zero => simp [lookupLoop, hashCalls]
  | succ n ih =>
    unfold lookupLoop hashCalls
    cases hround : (b.hashfunc (BookBoard.hashkey board) i).bind b.readEntry with
    | none => exact iff_of_true rfl ⟨i, List.mem_cons_self, hround⟩
    | some e =>
      simp only [List.exists_mem_cons_iff, hround, reduceCtorEq, false_or]
      by_cases hempty : e.isEmpty = true
      · simp [hempty]
      · by_cases hkey : e.hashkey = BookBoard.hashkey board
        · simp only [hempty, hkey, ne_eq, not_true, Bool.false_eq_true, if_false]
          split <;> simp
        · simp only [hempty, hkey, ne_eq, not_false_eq_true, Bool.false_eq_true, if_false, if_true]
          exact ih (i + 1) e

/-- **The loop of `put` fails only in one of these calls.** -/
theorem putLoop_eq_none_iff (newentry : BookEntry Mov) {n i : Nat}
    (hn : i + n = b.header.size.toNat) (slot : Nat) :
    b.putLoop newentry n i slot = none ↔
      ∃ j ∈ b.hashCalls newentry.hashkey n i,
        (b.hashfunc newentry.hashkey j).bind b.readEntry = none := by
  induction n generalizing i slot with
  | zero => simp [putLoop, hashCalls]
  | succ n ih =>
    unfold putLoop hashCalls
    cases hhash : b.hashfunc newentry.hashkey i with
    | none => simp [hhash]
    | some s =>
      cases hread : b.readEntry s with
      | none => exact iff_of_true (by simp [hread]) ⟨i, by simp, by simp [hhash, hread]⟩
      | some e =>
        simp only [List.exists_mem_cons_iff, hhash, hread, Option.bind_some, reduceCtorEq, false_or]
        by_cases hempty : e.isEmpty = true
        · simp [hempty]
        · by_cases hkey : e.hashkey = newentry.hashkey
          · simp [hempty, hkey]
          · simp only [hempty, hkey, ne_eq, not_false_eq_true, Bool.false_eq_true, if_false, if_true]
            split
            · obtain rfl : n = 0 := by omega
              simp [hashCalls]
            · exact ih (by omega) s

/-! ## Creating and filling -/

/-- The wiping loop does not get beyond the end of the book. -/
theorem wipe_frame {l : List Nat} {b b' : Book Mov}
    (h : l.foldlM (fun b slot => b.writeEntry slot .blank) b = some b') :
    (∀ slot ∈ l, slot < b.header.size.toNat) ∧ b'.header = b.header ∧
      b'.file.header = b.file.header := by
  induction l generalizing b with
  | nil =>
    obtain rfl := Option.some.inj h
    exact ⟨fun _ hmem => absurd hmem List.not_mem_nil, rfl, rfl⟩
  | cons slot l ih =>
    rw [List.foldlM_cons] at h
    obtain ⟨b₁, hwrite, hrest⟩ := Option.bind_eq_some_iff.mp h
    obtain ⟨hslots, hheader, hfile⟩ := ih hrest
    unfold writeEntry at hwrite
    split at hwrite
    · cases hwrite
    · rename_i hlt
      obtain rfl := Option.some.inj hwrite
      exact ⟨List.forall_mem_cons.mpr ⟨not_le.mp hlt, hslots⟩, hheader, hfile⟩

/-- The header of a new book tells its true size. -/
theorem create_header {n : Nat} (h : create Mov n = some b) :
    b.header.size.toNat = n ∧ b.header.magic = BookMove.magic Mov ∧ b.file.header = b.header := by
  obtain ⟨hslots, hheader, hfile⟩ := wipe_frame h
  have hlt : n < 2 ^ 32 := by
    by_contra hge
    have hlast := hslots (n % 2 ^ 32) (List.mem_range.mpr (by omega))
    rw [BitVec.toNat_ofNat] at hlast
    exact lt_irrefl _ hlast
  rw [hheader]
  exact ⟨Nat.mod_eq_of_lt hlt, rfl, hfile⟩

theorem put_header {e : BookEntry Mov} {result : Book Mov × Bool} (h : b.put e = some result) :
    result.1.header = b.header ∧ result.1.file.header = b.file.header := by
  unfold put at h
  split at h
  · cases h
  · obtain rfl := Option.some.inj h
    exact ⟨rfl, rfl⟩
  · obtain ⟨b', hwrite, rfl⟩ := Option.map_eq_some_iff.mp h
    unfold writeEntry at hwrite
    split at hwrite
    · cases hwrite
    · obtain rfl := Option.some.inj hwrite
      exact ⟨rfl, rfl⟩

/-- The loop over the entries; how many collide is only printed. -/
def fill (b : Book Mov) (entries : List (BookEntry Mov)) : Option (Book Mov) :=
  entries.foldlM (fun b entry => (b.put entry).map Prod.fst) b

theorem fill_header {entries : List (BookEntry Mov)} {b b' : Book Mov} (h : b.fill entries = some b') :
    b'.header = b.header ∧ b'.file.header = b.file.header := by
  induction entries generalizing b with
  | nil =>
    obtain rfl := Option.some.inj h
    exact ⟨rfl, rfl⟩
  | cons e entries ih =>
    obtain ⟨b₁, hput, hrest⟩ := Option.bind_eq_some_iff.mp ((List.foldlM_cons ..).symm.trans h)
    obtain ⟨result, hresult, rfl⟩ := Option.map_eq_some_iff.mp hput
    obtain ⟨hheader, hfile⟩ := ih hrest
    obtain ⟨hheader₁, hfile₁⟩ := put_header hresult
    exact ⟨hheader.trans hheader₁, hfile.trans hfile₁⟩

section Create

variable [MoveOrder Mov] [BookGame Brd Mov] (sorting : Sorting (Mov × BitVec 32) moreFrequent)

/-- `create_from_pgn`, from the games that are read to the finished book. -/
def createFromPgn (pgns : List (Pgn Brd Mov)) (depth minMoveCount : BitVec 32) : Option (Book Mov) :=
  match readPgns depth pgns with
  | none => none
  | some pgnmap =>
    let entries := bookEntries sorting pgnmap minMoveCount
    match create Mov (extBooksize entries.length) with
    | none => none
    | some b => b.fill entries

/-- A book in which some key is looked for: while it is filled, or in a later lookup, also
after it was opened again. -/
inductive Searched (pgns : List (Pgn Brd Mov)) (depth minMoveCount : BitVec 32) :
    Book Mov → BitVec 64 → Prop
  | put {pgnmap : PgnMap Mov} {done rest : List (BookEntry Mov)} {entry : BookEntry Mov}
      {b₀ b : Book Mov} : readPgns depth pgns = some pgnmap →
      bookEntries sorting pgnmap minMoveCount = done ++ entry :: rest →
      create Mov (extBooksize (done ++ entry :: rest).length) = some b₀ → b₀.fill done = some b →
      Searched pgns depth minMoveCount b entry.hashkey
  | lookup {b : Book Mov} (board : Brd) : createFromPgn sorting pgns depth minMoveCount = some b →
      Searched pgns depth minMoveCount b (BookBoard.hashkey board)
  | reopened {b b' : Book Mov} (board : Brd) :
      createFromPgn sorting pgns depth minMoveCount = some b → openFile b.file = some b' →
      Searched pgns depth minMoveCount b' (BookBoard.hashkey board)

variable {sorting}

/-- The size of a book in which a key is looked for. -/
theorem Searched.size {pgns : List (Pgn Brd Mov)} {depth minMoveCount : BitVec 32} {k : BitVec 64}
    (h : Searched sorting pgns depth minMoveCount b k) :
    ∃ pgnmap, readPgns depth pgns = some pgnmap ∧
      b.header.size.toNat = extBooksize (bookEntries sorting pgnmap minMoveCount).length := by
  have hcreated : ∀ {b : Book Mov}, createFromPgn sorting pgns depth minMoveCount = some b →
      ∃ pgnmap, readPgns depth pgns = some pgnmap ∧
        b.header.size.toNat = extBooksize (bookEntries sorting pgnmap minMoveCount).length ∧
        b.header.magic = BookMove.magic Mov ∧ b.file.header = b.header := by
    intro b hb
    unfold createFromPgn at hb
    split at hb
    · cases hb
    · rename_i pgnmap hread
      simp only at hb
      split at hb
      · cases hb
      · rename_i b₀ hcreate
        obtain ⟨hsize, hmagic, hfile⟩ := create_header hcreate
        obtain ⟨hheader, hfile'⟩ := fill_header hb
        exact ⟨pgnmap, hread, by rw [hheader, hsize], by rw [hheader, hmagic], by rw [hfile', hfile, hheader]⟩
  cases h with
  | put hread hentries hcreate hfill =>
    refine ⟨_, hread, ?_⟩
    rw [(fill_header hfill).1, (create_header hcreate).1, hentries]
  | lookup board hb =>
    obtain ⟨pgnmap, hread, hsize, _⟩ := hcreated hb
    exact ⟨pgnmap, hread, hsize⟩
  | reopened board hb hopen =>
    obtain ⟨pgnmap, hread, hsize, hmagic, hfile⟩ := hcreated hb
    unfold openFile at hopen
    rw [if_pos (by rw [hfile]; exact hmagic)] at hopen
    obtain rfl := Option.some.inj hopen
    refine ⟨pgnmap, hread, ?_⟩
    show (BookHeader.b2h _ false).size.toNat = _
    rw [hfile]
    exact hsize

omit [MoveOrder Mov] in
/-- The moves that are read are no `NO_MOVE`. -/
theorem recordedMoves_ne {pgns : List (Pgn Brd Mov)} (depth : BitVec 32)
    (h : ∀ pgn ∈ pgns, Playable pgn.opening pgn.moves) :
    ∀ e ∈ recordedMoves depth pgns, e.2 ≠ BookMove.noMove := by
  have hplayed : ∀ {moves : List Mov} {board : Brd}, Playable board moves →
      ∀ e ∈ played board moves, e.2 ≠ BookMove.noMove := by
    intro moves
    induction moves with
    | nil => exact fun _ _ hmem => absurd hmem List.not_mem_nil
    | cons mov moves ih =>
      rintro board ⟨⟨hvalid, _⟩, hrest⟩ e hmem
      rcases List.mem_cons.mp hmem with rfl | hmem
      · intro hnone
        rw [show mov = BookMove.noMove from hnone, BookGame.noMove_invalid] at hvalid
        cases hvalid
      · exact ih hrest e hmem
  intro e he
  obtain ⟨pgn, hpgn, hmem⟩ := List.mem_flatMap.mp he
  exact hplayed (h pgn hpgn) e (List.mem_of_mem_take hmem)

/-- **A single entry makes `hashfunc` divide by zero**, in the first call of `put`. -/
theorem single_divides {pgns : List (Pgn Brd Mov)} {depth minMoveCount : BitVec 32}
    {pgnmap : PgnMap Mov} (hread : readPgns depth pgns = some pgnmap)
    (hsingle : (bookEntries sorting pgnmap minMoveCount).length = 1) :
    ∃ b k, Searched sorting pgns depth minMoveCount b k ∧ b.header.size.toNat = 1 ∧
      0 ∈ b.hashCalls k b.header.size.toNat 0 ∧ b.hashfunc k 0 = none := by
  obtain ⟨entry, hentry⟩ := List.length_eq_one_iff.mp hsingle
  obtain ⟨b, hb, hsize, _⟩ := create_upto Mov 1 (le_refl 1) (by decide)
  refine ⟨b, entry.hashkey, ?_, hsize, ?_, ?_⟩
  · refine .put hread (hentry.trans (List.nil_append _).symm) ?_ rfl
    rw [List.nil_append, List.length_singleton, extBooksize_one]
    exact hb
  · rw [hsize]
    exact List.mem_cons_self
  · simp [hashfunc, hsize]

/-- **When creating a book and looking things up in it never divide by zero.** -/
theorem createFromPgn_divides_iff (pgns : List (Pgn Brd Mov))
    (h : ∀ pgn ∈ pgns, Playable pgn.opening pgn.moves) (depth minMoveCount : BitVec 32) :
    (∀ b k, Searched sorting pgns depth minMoveCount b k →
      ∀ i ∈ b.hashCalls k b.header.size.toNat 0, 2 ≤ b.header.size.toNat) ↔
    ¬ ∃! k, Survives minMoveCount (recordedMoves depth pgns) k := by
  have hread := readPgns_eq depth h
  rw [← bookEntries_length_eq_one_iff sorting (recordedMoves_ne depth h)]
  constructor
  · intro hsafe hsingle
    obtain ⟨b, k, hb, hsize, hcall, _⟩ := single_divides hread hsingle
    have htwo := hsafe b k hb 0 hcall
    omega
  · intro hmany b k hb i hcall
    obtain ⟨pgnmap, hmap, hsize⟩ := hb.size
    obtain rfl := Option.some.inj (hread.symm.trans hmap)
    rcases Nat.lt_or_ge (bookEntries sorting ((recordedMoves depth pgns).foldl pushBack .empty)
        minMoveCount).length 2 with hfew | htwo
    · have hnone : (bookEntries sorting ((recordedMoves depth pgns).foldl pushBack .empty)
        minMoveCount).length = 0 := by omega
      rw [hsize, hnone, extBooksize_zero] at hcall
      exact absurd hcall List.not_mem_nil
    · rw [hsize]
      exact two_le_extBooksize htwo

end Create

end HashCalls

/-! ## A single move -/

/-- Sorting by merging. -/
def mergeSorting (Mov : Type) : Sorting (Mov × BitVec 32) moreFrequent where
  sort l := l.mergeSort (fun a b => b.2 ≤ a.2)
  perm l := List.mergeSort_perm l _
  sorted l := by
    have h := @List.pairwise_mergeSort _ (fun a b : Mov × BitVec 32 => decide (b.2 ≤ a.2))
      (fun a b c hab hbc => by simp only [decide_eq_true_eq] at *; exact BitVec.le_trans hbc hab)
      (fun a b => by simp only [Bool.or_eq_true, decide_eq_true_eq]; exact BitVec.le_total b.2 a.2) l
    exact h.imp fun hle => BitVec.not_lt.mpr (of_decide_eq_true hle)

/-- The game of the advance of the king's pawn alone. -/
def oneMoveGame (board : Chess.Board) : Pgn Chess.Board Chess.Move := ⟨board, [Game.kingsPawn]⟩

/-- With the games `[1. e4]` a book of one slot is created, where `hashfunc` divides by zero. -/
theorem createFromPgn_divides : ∃ board,
    @Chess.Board.parseFen Chess.sampleBuild Chess.openingFen = .accepted board ∧
    ∃ b k, @Searched _ _ _ _ (@Chess.bookGame Chess.sampleBuild) (mergeSorting Chess.Move)
        [oneMoveGame board] 0#32 1#32 b k ∧
      b.header.size.toNat = 1 ∧ 0 ∈ b.hashCalls k b.header.size.toNat 0 ∧ b.hashfunc k 0 = none := by
  let _ := Chess.sampleBuild
  obtain ⟨board, hboard, hmov⟩ := Game.kingsPawn_asserted
  have hplay : ∀ pgn ∈ [oneMoveGame board], Playable pgn.opening pgn.moves :=
    List.forall_mem_singleton.mpr ⟨hmov, trivial⟩
  have hrecorded : recordedMoves 0#32 [oneMoveGame board] = [(board.hashkey, Game.kingsPawn)] := by
    simp only [recordedMoves, List.flatMap_cons, List.flatMap_nil, recorded_eq]
    rfl
  refine ⟨board, hboard, single_divides (readPgns_eq 0#32 hplay) ?_⟩
  rw [bookEntries_length_eq_one_iff _ (recordedMoves_ne 0#32 hplay), hrecorded]
  have hsurvives : ∀ k, Survives 1#32 [(board.hashkey, Game.kingsPawn)] k ↔ k = board.hashkey := by
    intro k
    unfold Survives movesAt
    rcases eq_or_ne k board.hashkey with rfl | hne
    · simp
    · simp [hne, Ne.symm hne]
  exact ⟨board.hashkey, (hsurvives _).mpr rfl, fun k hk => (hsurvives k).mp hk⟩

/-- With the games `[1. e4 e5]` there are two entries, and all is well. -/
theorem createFromPgn_openGame : ∃ board,
    @Chess.Board.parseFen Chess.sampleBuild Chess.openingFen = .accepted board ∧
    ((∀ b k, @Searched _ _ _ _ (@Chess.bookGame Chess.sampleBuild) (mergeSorting Chess.Move)
        [openGame board] 0#32 1#32 b k →
      ∀ i ∈ b.hashCalls k b.header.size.toNat 0, 2 ≤ b.header.size.toNat) ↔
    ¬ ∃! k, Survives 1#32 (@recordedMoves _ _ _ (@Chess.bookGame Chess.sampleBuild) 0#32
      [openGame board]) k) := by
  let _ := Chess.sampleBuild
  obtain ⟨board, hboard, hplay⟩ := openGame_playable
  exact ⟨board, hboard, createFromPgn_divides_iff [openGame board]
    (List.forall_mem_singleton.mpr hplay) 0#32 1#32⟩

end Book

end HoiChess
