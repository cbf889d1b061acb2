import HoiChess.Lib.Window
import HoiChess.Chess.Validity
import HoiChess.Common.Node

/-!
# The hash table of the search

`put` overwrites the entry at `hashkey % table_size`, `probe` returns an entry only
for the same key, and only if its move can be played.  `store_hashtable` turns the
result of a search with a window into a bound and `probe_hashtable` answers another
window from it.  An entry answers every window as the value of its node would
exactly if its bound holds, and `store_hashtable` writes a wrong bound exactly
where it takes the edge of a window for a mate (`storeBound_holds_iff`).
-/

namespace HoiChess

open Chess Window

inductive HashEntryType where
  | none
  | exact
  | alpha
  | beta
  deriving DecidableEq, Repr

structure HashEntry where
  hashkey : Hashkey
  type : HashEntryType
  depth : BitVec 16
  score : Int
  move : Move
  deriving DecidableEq

abbrev hashentrypvMaxmoves : Nat := 8

/-- `HashEntryPV` -/
structure HashEntryPv where
  moves : List Move
  length_le : moves.length ≤ hashentrypvMaxmoves

structure HashTable where
  tableSize : Nat
  size_pos : 0 < tableSize
  table : Fin tableSize → HashEntry
  pvtable : Option (Fin tableSize → HashEntryPv)

namespace HashEntry

/-- `HashEntry(board, score, move, depth, type)` -/
def ofBoard (board : Board) (score : Int) (move : Move) (depth : Int) (type : HashEntryType) :
    HashEntry := ⟨board.hashkey, type, BitVec.ofInt 16 depth, score, move⟩

/-- What an entry says about the value of its node. -/
def bound (e : HashEntry) : Option (Bound Int) :=
  match e.type with
  | .none => Option.none
  | .exact => some (.exact e.score)
  | .alpha => some (.atMost e.score)
  | .beta => some (.atLeast e.score)

end HashEntry

namespace HashTable

variable (t : HashTable)

/-- `hashkey % table_size` -/
def key (hashkey : Hashkey) : Fin t.tableSize :=
  ⟨hashkey.toNat % t.tableSize, Nat.mod_lt _ t.size_pos⟩

def put (entry : HashEntry) (pvline : PvLine) : HashTable :=
  { t with
    table := Function.update t.table (t.key entry.hashkey) entry
    pvtable := t.pvtable.map (fun pv => Function.update pv (t.key entry.hashkey)
      ⟨pvline.moves.take hashentrypvMaxmoves, by
        rw [List.length_take]
        exact Nat.min_le_left _ _⟩) }

/-- The line stored next to an entry. -/
def pvAt (i : Fin t.tableSize) : PvLine :=
  match t.pvtable with
  | some pv => ⟨(pv i).moves, (pv i).length_le.trans (by decide)⟩
  | none => .empty

def probe [Build] (board : Board) : Option (HashEntry × PvLine) :=
  let i := t.key board.hashkey
  let e := t.table i
  if e.type = .none ∨ e.hashkey ≠ board.hashkey then none
  else if e.move ≠ .noMove ∧ ¬ (board.isValidMove e.move && board.isLegalMove e.move) then none
  else some (e, t.pvAt i)

@[simp] theorem put_table_self (entry : HashEntry) (pvline : PvLine) :
    (t.put entry pvline).table (t.key entry.hashkey) = entry := Function.update_self ..

end HashTable

/-! ## Storing and probing -/

/-- `bound_score(score, alpha, beta)` -/
def boundScore (score alpha beta : Int) : Int :=
  if score > beta then beta else if score < alpha then alpha else score

theorem boundScore_eq_clamp {alpha beta : Int} (h : alpha ≤ beta) (score : Int) :
    boundScore score alpha beta = clamp alpha beta score := by
  unfold boundScore clamp
  split
  · omega
  · split <;> omega

theorem boundScore_mem {alpha beta : Int} (h : alpha ≤ beta) (score : Int) :
    alpha ≤ boundScore score alpha beta ∧ boundScore score alpha beta ≤ beta := by
  rw [boundScore_eq_clamp h]
  exact ⟨le_clamp, clamp_le h⟩

/-- The entry type and score that `store_hashtable` chooses. -/
def storeScore (alpha beta score : Int) : HashEntryType × Int :=
  if score ≥ mate then (.beta, mate)
  else if score ≤ -mate then (.alpha, -mate)
  else if score ≥ beta then (.beta, score)
  else if score ≤ alpha then (.alpha, score)
  else (.exact, score)

/-- The entry that `store_hashtable` writes. -/
def storeEntry (node : Node) (depth alpha beta score : Int) : HashEntry :=
  .ofBoard node.board (storeScore alpha beta score).2 node.getBestMove depth
    (storeScore alpha beta score).1

/-- `store_hashtable(node, depth, alpha, beta, score)` -/
def storeHashtable (hashtable : Option HashTable) (node : Node) (depth alpha beta score : Int) :
    Option HashTable :=
  hashtable.map (fun t => t.put (storeEntry node depth alpha beta score) node.bestLine)

/-- The switch of `probe_hashtable`: the score of a usable entry for a window. -/
def entryScore (failsoft : Bool) (e : HashEntry) (alpha beta : Int) : Option Int :=
  let s := if failsoft then e.score else boundScore e.score alpha beta
  match e.type with
  | .none => none
  | .exact => some s
  | .alpha => if e.score ≤ alpha then some s else none
  | .beta => if e.score ≥ beta then some s else none

/-- `probe_hashtable(node, depth, alpha, beta, &score)`: the node with its new hash move
and line, and the score if the entry can be used directly. -/
def probeHashtable [Build] (failsoft : Bool) (hashtable : Option HashTable) (node : Node)
    (depth alpha beta : Int) : Node × Option Int :=
  match hashtable with
  | none => (node, none)
  | some t =>
    match t.probe node.board with
    | none => (node, none)
    | some (e, pvline) =>
      let node := { node with hashmv := e.move }
      let node := if pvline.moves.length > node.pvline.moves.length then { node with pvline := pvline }
        else node
      if e.depth.toNat ≥ (BitVec.ofInt 32 depth).toNat then (node, entryScore failsoft e alpha beta)
      else (node, none)

/-- A probe changes no more of the node than its hash move and its line. -/
theorem probeHashtable_node [Build] (failsoft : Bool) (hashtable : Option HashTable) (node : Node)
    (depth alpha beta : Int) : ∃ hashmv pvline,
      (probeHashtable failsoft hashtable node depth alpha beta).1 =
        { node with hashmv := hashmv, pvline := pvline } := by
  unfold probeHashtable
  cases hashtable with
  | none => exact ⟨node.hashmv, node.pvline, rfl⟩
  | some t =>
    simp only
    cases t.probe node.board with
    | none => exact ⟨node.hashmv, node.pvline, rfl⟩
    | some found =>
      obtain ⟨e, pvline⟩ := found
      refine ⟨e.move,
        if pvline.moves.length > node.pvline.moves.length then pvline else node.pvline, ?_⟩
      simp only
      split <;> split <;> rfl

/-- In fail-hard mode a probe answers from within the window. -/
theorem entryScore_mem {e : HashEntry} {alpha beta score : Int} (hab : alpha ≤ beta)
    (h : entryScore false e alpha beta = some score) : alpha ≤ score ∧ score ≤ beta := by
  have hmem := boundScore_mem hab e.score
  unfold entryScore at h
  rw [if_neg Bool.false_ne_true] at h
  cases ht : e.type with
  | none =>
    simp only [ht] at h
    cases h
  | exact =>
    simp only [ht] at h
    cases h
    exact hmem
  | alpha | beta =>
    simp only [ht] at h
    obtain ⟨_, h⟩ := Option.ite_none_right_eq_some.mp h
    cases h
    exact hmem

theorem probeHashtable_mem [Build] {hashtable : Option HashTable} {node n : Node}
    {depth alpha beta score : Int} (hab : alpha ≤ beta)
    (h : probeHashtable false hashtable node depth alpha beta = (n, some score)) :
    alpha ≤ score ∧ score ≤ beta := by
  unfold probeHashtable at h
  cases hashtable with
  | none => cases h
  | some t =>
    simp only at h
    cases hp : t.probe node.board with
    | none =>
      simp only [hp] at h
      cases h
    | some found =>
      simp only [hp] at h
      split at h
      · exact entryScore_mem hab (Prod.mk.inj h).2
      · cases h

/-! ## What an entry is worth -/

/-- What the entry written for a search result says about the node's value. -/
def storeBound (alpha beta score : Int) : Bound Int :=
  if score ≥ mate then .atLeast mate
  else if score ≤ -mate then .atMost (-mate)
  else if score ≥ beta then .atLeast score
  else if score ≤ alpha then .atMost score
  else .exact score

theorem bound_storeEntry (node : Node) (depth alpha beta score : Int) :
    (storeEntry node depth alpha beta score).bound = some (storeBound alpha beta score) := by
  show HashEntry.bound ⟨_, (storeScore alpha beta score).1, _, (storeScore alpha beta score).2, _⟩ = _
  unfold storeScore storeBound
  split
  · rfl
  split
  · rfl
  split
  · rfl
  split <;> rfl

/-- In fail-hard mode the switch answers from the bound. -/
theorem entryScore_failhard {e : HashEntry} {bd : Bound Int} (h : e.bound = some bd)
    {alpha beta : Int} (hab : alpha < beta) :
    entryScore false e alpha beta = bd.resolve alpha beta := by
  unfold HashEntry.bound at h
  unfold entryScore
  rw [if_neg Bool.false_ne_true, boundScore_eq_clamp hab.le]
  cases ht : e.type <;> simp only [ht] at h <;> cases h <;> rfl

/-- **When the bound written for a fail-hard result is right**: unless an edge of the
window lies among the mate scores and the value does not. -/
theorem storeBound_holds_iff {alpha beta : Int} (hab : alpha < beta) (v : Int) :
    (storeBound alpha beta (clamp alpha beta v)).Holds v ↔
      ¬ (mate ≤ alpha ∧ v < mate) ∧ ¬ (beta ≤ -mate ∧ -mate < v) := by
  have hmate : mate = 90000 := rfl
  unfold storeBound
  split
  · rename_i h
    have : mate ≤ clamp alpha beta v ↔ mate ≤ alpha ∨ mate ≤ v ∧ mate ≤ beta := by
      unfold clamp
      omega
    simp only [Bound.Holds]
    omega
  · rename_i h1
    split
    · have : clamp alpha beta v ≤ -mate ↔ beta ≤ -mate ∨ v ≤ -mate ∧ alpha ≤ -mate := by
        unfold clamp
        omega
      simp only [Bound.Holds]
      omega
    · rename_i h2
      have hedges : ¬ (mate ≤ alpha ∧ v < mate) ∧ ¬ (beta ≤ -mate ∧ -mate < v) := by
        unfold clamp at h1 h2
        omega
      refine iff_of_true ?_ hedges
      split
      · rename_i h3
        exact (clamp_of_ge ((le_clamp_iff hab).mp h3) hab.le).le.trans ((le_clamp_iff hab).mp h3)
      · rename_i h3
        split
        · rename_i h4
          exact ((clamp_le_iff hab).mp h4).trans le_clamp
        · rename_i h4
          exact (clamp_eq_self (not_le.mp h4) (not_le.mp h3)).symm

/-- The entry is where a probe for a key looks. -/
def HashTable.Finds (t : HashTable) (hashkey : Hashkey) (e : HashEntry) : Prop :=
  t.table (t.key hashkey) = e

section Probing

variable [Build]

/-- A move that `probe` does not object to. -/
def Playable (board : Board) (mov : Move) : Prop :=
  mov = .noMove ∨ (board.isValidMove mov = true ∧ board.isLegalMove mov = true)

instance (board : Board) (mov : Move) : Decidable (Playable board mov) :=
  inferInstanceAs (Decidable (_ ∨ (_ ∧ _)))

/-- Two boards that a probe does not tell apart; they may differ in their counters. -/
structure SamePosition (board board' : Board) : Prop where
  hashkey : board'.hashkey = board.hashkey
  playable : ∀ mov, Playable board' mov ↔ Playable board mov

theorem HashTable.probe_eq {t : HashTable} {board : Board} {e : HashEntry}
    (h : t.Finds board.hashkey e) (hkey : e.hashkey = board.hashkey) (htype : e.type ≠ .none) :
    (¬ Playable board e.move ∧ t.probe board = none) ∨
      (Playable board e.move ∧ t.probe board = some (e, t.pvAt (t.key board.hashkey))) := by
  have htable : t.table (t.key board.hashkey) = e := h
  unfold HashTable.probe Playable
  simp only [htable, hkey, htype, ne_eq, not_true_eq_false, or_self, if_false, Bool.and_eq_true]
  split
  · rename_i hno
    exact Or.inl ⟨fun hp => hp.elim hno.1 hno.2, rfl⟩
  · rename_i hyes
    exact Or.inr ⟨by_contra fun hp => hyes (not_or.mp hp), rfl⟩

/-- What a probe for the position delivers when the entry is found. -/
theorem probeHashtable_score {t : HashTable} {node : Node} {e : HashEntry} {bd : Bound Int}
    (h : t.Finds node.board.hashkey e) (hkey : e.hashkey = node.board.hashkey)
    (hbd : e.bound = some bd) (depth : Int) {alpha beta : Int} (hab : alpha < beta) :
    (probeHashtable false (some t) node depth alpha beta).2 =
      if Playable node.board e.move ∧ (BitVec.ofInt 32 depth).toNat ≤ e.depth.toNat then
        bd.resolve alpha beta
      else none := by
  have htype : e.type ≠ .none := by
    intro ht
    rw [HashEntry.bound, ht] at hbd
    cases hbd
  rcases HashTable.probe_eq h hkey htype with ⟨hplay, hp⟩ | ⟨hplay, hp⟩
  · rw [probeHashtable, if_neg (fun h => hplay h.1)]
    simp only [hp]
  · rw [probeHashtable]
    simp only [hp]
    by_cases hd : (BitVec.ofInt 32 depth).toNat ≤ e.depth.toNat
    · have hc : Playable node.board e.move ∧ (BitVec.ofInt 32 depth).toNat ≤ e.depth.toNat :=
        ⟨hplay, hd⟩
      rw [if_pos hd, if_pos hc]
      exact entryScore_failhard hbd hab
    · have hc : ¬ (Playable node.board e.move ∧ (BitVec.ofInt 32 depth).toNat ≤ e.depth.toNat) :=
        fun h => hd h.2
      rw [if_neg hd, if_neg hc]

/-- Every score that a probe for the position delivers from the entry is the value `v` seen
through the window of the probe, in whatever table the entry is found. -/
def SoundFor (board : Board) (e : HashEntry) (v : Int) : Prop :=
  ∀ (t : HashTable) (node : Node) (depth alpha beta score : Int),
    SamePosition board node.board → t.Finds board.hashkey e → alpha < beta →
      (probeHashtable false (some t) node depth alpha beta).2 = some score →
        score = clamp alpha beta v

/-- **An entry is sound exactly if its bound holds**, unless no probe ever accepts its move. -/
theorem soundFor_iff {board : Board} {e : HashEntry} {bd : Bound Int}
    (hkey : e.hashkey = board.hashkey) (hbd : e.bound = some bd) (v : Int) :
    SoundFor board e v ↔ bd.Holds v ∨ ¬ Playable board e.move := by
  constructor
  · intro h
    rw [or_iff_not_imp_right, not_not]
    intro hplay
    refine Bound.answers_iff_holds.mp fun a b hab r hr => ?_
    let t : HashTable := ⟨1, Nat.one_pos, fun _ => e, none⟩
    refine h t (.ofBoard board) 0 a b r ⟨rfl, fun _ => Iff.rfl⟩ rfl hab ?_
    rw [probeHashtable_score rfl hkey hbd 0 hab, if_pos ⟨hplay, by simp⟩, hr]
  · rintro h t node depth a b score hsame hfinds hab hs
    rw [← hsame.hashkey] at hfinds hkey
    rw [probeHashtable_score hfinds hkey hbd depth hab] at hs
    split at hs
    · rename_i hc
      have hv : bd.Holds v := h.resolve_right (not_not.mpr ((hsame.playable _).mp hc.1))
      exact hv.answers a b hab score hs
    · cases hs

/-- Whatever is stored for a fail-hard result of value `v` is sound from then on. -/
def StoresSoundly (node : Node) (depth alpha beta v : Int) : Prop :=
  ∀ t t', storeHashtable (some t) node depth alpha beta (boundScore v alpha beta) = some t' →
    SoundFor node.board (t'.table (t'.key node.board.hashkey)) v

theorem storesSoundly_iff_holds (node : Node) (depth : Int) {alpha beta : Int} (hab : alpha < beta)
    (v : Int) :
    StoresSoundly node depth alpha beta v ↔
      (storeBound alpha beta (clamp alpha beta v)).Holds v ∨
        ¬ Playable node.board node.getBestMove := by
  have hentry : ∀ t, ∃ t', storeHashtable (some t) node depth alpha beta (boundScore v alpha beta) =
      some t' ∧ t'.table (t'.key node.board.hashkey) =
        storeEntry node depth alpha beta (boundScore v alpha beta) :=
    fun t => ⟨_, rfl, t.put_table_self _ _⟩
  have hsound : StoresSoundly node depth alpha beta v ↔
      SoundFor node.board (storeEntry node depth alpha beta (boundScore v alpha beta)) v := by
    constructor
    · intro h
      obtain ⟨t', ht', he⟩ := hentry ⟨1, Nat.one_pos, fun _ => ⟨0#64, .none, 0#16, 0, .noMove⟩, none⟩
      have := h _ t' ht'
      rwa [he] at this
    · intro h t t' ht'
      obtain ⟨t'', ht'', he⟩ := hentry t
      rw [ht'] at ht''
      cases ht''
      rwa [he]
  rw [hsound, soundFor_iff rfl (bound_storeEntry node depth alpha beta _), boundScore_eq_clamp hab.le]
  rfl

/-- **Exactly when an entry stored in fail-hard mode is a sound bound.** -/
theorem storesSoundly_iff (node : Node) (depth : Int) {alpha beta : Int} (hab : alpha < beta)
    (v : Int) :
    StoresSoundly node depth alpha beta v ↔
      (¬ (mate ≤ alpha ∧ v < mate) ∧ ¬ (beta ≤ -mate ∧ -mate < v)) ∨
        ¬ Playable node.board node.getBestMove := by
  rw [storesSoundly_iff_holds node depth hab, storeBound_holds_iff hab]

end Probing

/-- The window `(MATE, INFTY)` over a value of 0: the result `MATE` is stored as a lower
bound, and a window below it gets the answer `MATE`. -/
theorem storesUnsoundly_above_mate : ∃ b, @Board.parseFen sampleBuild openingFen = .accepted b ∧
    ¬ @StoresSoundly sampleBuild (.ofBoard b) 1 mate infty 0 := by
  let _ := sampleBuild
  obtain ⟨b, hb, _⟩ := parseFen_opening
  refine ⟨b, hb, fun hsound => ?_⟩
  rcases (storesSoundly_iff_holds _ _ (by decide) _).mp hsound with h | h
  · have h : mate ≤ 0 := h
    exact absurd h (by decide)
  · exact h (Or.inl rfl)

/-- An ordinary window stores a sound entry. -/
theorem storesSoundly_ordinary : ∃ b, @Board.parseFen sampleBuild openingFen = .accepted b ∧
    @StoresSoundly sampleBuild (.ofBoard b) 1 (-50) 50 20 := by
  let _ := sampleBuild
  obtain ⟨b, hb, _⟩ := parseFen_opening
  exact ⟨b, hb, (storesSoundly_iff (.ofBoard b) 1 (by decide) 20).mpr
    (Or.inl ⟨by decide, by decide⟩)⟩

end HoiChess
