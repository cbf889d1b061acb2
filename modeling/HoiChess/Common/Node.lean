import HoiChess.Chess.Escapes

/-!
# Nodes of the search tree

A node holds a position, its move list with the state of the move generator,
what orders the moves, and the best line found so far.  Moves leave the list in
the order of their scores (`pick_perm`): picking takes one of the remaining moves
away and ends only when none is left, as long as no score is as low as `-INFTY`.
-/

namespace HoiChess

open Chess

abbrev infty : Int := 100000
abbrev mate : Int := 90000
abbrev draw : Int := 0
abbrev maxply : Nat := 1024
abbrev maxdepth : Nat := 900

/-- `material_difference()` -/
def Chess.Board.materialDifference (b : Board) : Int :=
  b.material.get b.side - b.material.get b.side.xside

/-- `HistoryTable`: how often a move between two squares was best. -/
abbrev HistoryTable := Square → Square → Nat

namespace HistoryTable

def reset : HistoryTable := fun _ _ => 0

def add (t : HistoryTable) (mov : Move) : HistoryTable :=
  Function.update t mov.fromSq (Function.update (t mov.fromSq) mov.toSq (t mov.fromSq mov.toSq + 1))

def get (t : HistoryTable) (mov : Move) : Nat := t mov.fromSq mov.toSq

end HistoryTable

/-- `struct pvline` -/
structure PvLine where
  moves : List Move
  length_le : moves.length ≤ maxply
  deriving DecidableEq

namespace PvLine

def empty : PvLine := ⟨[], Nat.zero_le _⟩

/-- The first move, `NO_MOVE` if there is none. -/
def head (l : PvLine) : Move := l.moves.headD .noMove

/-- A line without its first move. -/
def tail (l : PvLine) : PvLine := ⟨l.moves.tail, by
  rw [List.length_tail]
  exact (Nat.sub_le _ _).trans l.length_le⟩

/-- A move in front of a line, which loses its last move if it is full. -/
def cons (mov : Move) (l : PvLine) : PvLine := ⟨mov :: l.moves.take (maxply - 1), by
  rw [List.length_cons, List.length_take]
  exact Nat.succ_le_succ (Nat.min_le_left _ _)⟩

end PvLine

/-- The types of nodes. -/
inductive NodeType where
  | unknown
  | root
  | fullwidth
  | quiesce
  deriving DecidableEq, Repr

/-- What a walk over the parent pointers reads of a node. -/
structure Ancestor where
  board : Board
  playedMove : Move

/-- A node.  `ancestors` are the nodes on the parent chain, the parent first;
`nextMoveNo` is `current_move_no + 1`; `historytable` says whose history table
the pointer leads to.  `tainted` is no field of the source: it records that the
search of a child of this node was aborted. -/
structure Node where
  ancestors : List Ancestor
  board : Board
  incheck : Bool
  material : Int
  movelist : Movelist
  nextMoveNo : Nat
  type : NodeType
  pvline : PvLine
  hashmv : Move
  killer1 : Move
  killer2 : Move
  historytable : Option Color
  bestLine : PvLine
  playedMove : Move
  tainted : Bool

namespace Node

/-- `Node(board)`; the source leaves the other fields as they are in memory, they are
written before they are read. -/
def ofBoard (board : Board) : Node where
  ancestors := []
  board := board
  incheck := false
  material := 0
  movelist := .empty
  nextMoveNo := 0
  type := .unknown
  pvline := .empty
  hashmv := .noMove
  killer1 := .noMove
  killer2 := .noMove
  historytable := none
  bestLine := .empty
  playedMove := .noMove
  tainted := false

variable (node : Node)

def getBestMove : Move := node.bestLine.head

def getPvmove : Move := node.pvline.head

/-- What the node's children see of it. -/
def ancestor : Ancestor := ⟨node.board, node.playedMove⟩

/-- What tells apart the nodes in use: no two of them have parent chains of one length. -/
def place : Board × List Ancestor := (node.board, node.ancestors)

/-- `set_best(mov, child)` -/
def setBest (mov : Move) (child : Node) : Node :=
  { node with bestLine := .cons mov child.bestLine }

def addKiller (mov : Move) : Node :=
  if node.killer1 = .noMove then { node with killer1 := mov }
  else if node.killer2 ≠ node.killer1 then { node with killer2 := mov }
  else node

/-- `set_current_score(score)` -/
def setCurrentScore (score : Int) : Node :=
  { node with movelist := node.movelist.setScore (node.nextMoveNo - 1) score }

section Generation

variable [Build]

/-- `make_move(mov, allocator)`; `slot` is what the history table pointer of the
allocated node still holds. -/
def makeMove (mov : Move) (slot : Option Color) : Node where
  ancestors := node.ancestor :: node.ancestors
  board := node.board.makeMove mov
  incheck := (node.board.makeMove mov).inCheck
  material := (node.board.makeMove mov).materialDifference
  movelist := .empty
  nextMoveNo := 0
  type := .unknown
  pvline :=
    if node.pvline.moves.length > 1 ∧ node.pvline.head = mov then node.pvline.tail else .empty
  hashmv := .noMove
  killer1 := .noMove
  killer2 := .noMove
  historytable := slot
  bestLine := .empty
  playedMove := mov
  tainted := false

/-- `generate_all_moves()` -/
def generateAllMoves : Node :=
  { node with movelist := node.board.filterIllegal (node.board.generateMoves false .empty) }

/-- `init_root()`; `none` where it asserts that there is a move. -/
def initRoot : Option Node :=
  let node := { node with
    incheck := node.board.inCheck
    material := node.board.materialDifference }
  let node := node.generateAllMoves
  match node.movelist.moves with
  | [] => none
  | mov :: _ => some { node with
      type := .root
      pvline := .empty
      hashmv := .noMove
      killer1 := .noMove
      killer2 := .noMove
      bestLine := .cons mov .empty
      playedMove := .noMove }

/-- What `mat_values` holds for a piece code, as an `unsigned int`.  A promotion that captures
nothing has the code 7, past the end of the array; `beyond` is the word that is read there. -/
def matValue (beyond : BitVec 32) : Option Piece → BitVec 32
  | some p => BitVec.ofInt 32 (matValues p)
  | none => beyond

/-- The score of a capture by the values of the men, which are `unsigned int`s: the sums wrap
around before they become an `int`. -/
def exchangeScore (matAtk matVic : BitVec 32) : Int :=
  if matVic > matAtk then (800000#32 + matVic - matAtk).toInt
  else if matVic < matAtk then (10000#32 + matVic - matAtk).toInt
  else 500000

/-- The score of a capture or a promotion. -/
def captureScore (beyond : BitVec 32) (mov : Move) : Int :=
  exchangeScore (matValue beyond mov.ptype)
    (matValue beyond mov.capPtype + if mov.isPromotion then matValue beyond mov.promoteTo else 0)

/-- The score that `score_moves` gives to one move. -/
def moveScore (beyond : BitVec 32) (history : PerColor HistoryTable) (mov : Move) : Int :=
  if 0 < node.pvline.moves.length ∧ mov = node.pvline.head then 1000000
  else if mov = node.hashmv then 900000
  else if mov.isCapture || mov.isPromotion || mov.isEnpassant then captureScore beyond mov
  else (if mov = node.killer1 ∨ mov = node.killer2 then 700000 else 0) +
    match node.historytable with
    | some c => min ((history.get c).get mov : Int) 100000
    | none => 0

/-- `score_moves()`, called with `current_move_no = -1`. -/
def scoreMoves (beyond : BitVec 32) (history : PerColor HistoryTable) : Node :=
  if node.type = .root then node
  else { node with movelist :=
    ⟨node.movelist.entries.map (fun e => (e.1, node.moveScore beyond history e.1)),
      by rw [List.length_map]; exact node.movelist.size_le⟩ }

/-- `first()` up to its call of `pick()`; `none` where it asserts or reports a bug. -/
def start (beyond : BitVec 32) (history : PerColor HistoryTable) : Option Node :=
  let node := { node with nextMoveNo := 0 }
  let escapesOr := fun (captures : Bool) =>
    if node.incheck then node.board.generateEscapes .empty
    else if captures then node.board.generateCaptures false .empty
    else node.board.generateMoves false .empty
  match node.type with
  | .root => if node.movelist.size ≠ 0 then some (node.scoreMoves beyond history) else none
  | .fullwidth =>
    let node := if node.movelist.size ≠ 0 then node else { node with movelist := escapesOr false }
    some (node.scoreMoves beyond history)
  | .quiesce => some ({ node with movelist := escapesOr true }.scoreMoves beyond history)
  | .unknown => none

end Generation

/-- The loop of `pick()`: `i` counts the entries, `m` is the first one with the best score. -/
def pickLoop : List (Move × Int) → Nat → Int → Option Nat → Option Nat
  | [], _, _, m => m
  | e :: l, i, score, m =>
    if e.2 > score then pickLoop l (i + 1) e.2 (some i) else pickLoop l (i + 1) score m

/-- `pick()` -/
def pick : Node × Move :=
  match pickLoop (node.movelist.entries.drop node.nextMoveNo) node.nextMoveNo (-infty) none with
  | none => (node, .noMove)
  | some m =>
    let mov := (node.movelist.moves[m]?).getD .noMove
    let movelist := if node.nextMoveNo ≠ m then node.movelist.swap node.nextMoveNo m
      else node.movelist
    ({ node with movelist := movelist, nextMoveNo := node.nextMoveNo + 1 }, mov)

/-! ## What picking does -/

/-- The entries that have not been picked yet. -/
def remaining : List (Move × Int) := node.movelist.entries.drop node.nextMoveNo

theorem pickLoop_none {l : List (Move × Int)} {i : Nat} {score : Int} {m : Option Nat}
    (h : pickLoop l i score m = none) : m = none ∧ ∀ e ∈ l, e.2 ≤ score := by
  induction l generalizing i score m with
  | nil => exact ⟨h, by simp⟩
  | cons e l ih =>
    rw [pickLoop] at h
    split at h
    · exact absurd (ih h).1 (by simp)
    · rename_i hle
      obtain ⟨hm, hl⟩ := ih h
      refine ⟨hm, ?_⟩
      rintro e' (_ | ⟨_, he'⟩)
      · exact not_lt.mp hle
      · exact hl e' he'

theorem pickLoop_some {l : List (Move × Int)} {i n : Nat} {score : Int} {m : Option Nat}
    (h : pickLoop l i score m = some n) : m = some n ∨ (i ≤ n ∧ n < i + l.length) := by
  induction l generalizing i score m with
  | nil => exact Or.inl h
  | cons e l ih =>
    rw [pickLoop] at h
    rw [List.length_cons]
    split at h
    · right
      rcases ih h with hi | ⟨h1, h2⟩
      · cases hi
        omega
      · omega
    · rcases ih h with hi | ⟨h1, h2⟩
      · exact Or.inl hi
      · exact Or.inr (by omega)

/-- What `pick()` does with the entry that its loop has found. -/
theorem pick_of_some {m : Nat}
    (h : pickLoop node.remaining node.nextMoveNo (-infty) none = some m) :
    ∃ hm : m < node.movelist.entries.length, ∃ movelist : Movelist,
      node.pick = ({ node with movelist := movelist, nextMoveNo := node.nextMoveNo + 1 },
        node.movelist.entries[m].1) ∧
      movelist.entries.Perm node.movelist.entries ∧
      movelist.entries[node.nextMoveNo]? = some node.movelist.entries[m] ∧
      node.remaining.Perm (node.movelist.entries[m] :: movelist.entries.drop (node.nextMoveNo + 1)) := by
  obtain ⟨hle, hlt⟩ := (pickLoop_some h).resolve_left (by simp)
  rw [remaining, List.length_drop] at hlt
  have hm : m < node.movelist.entries.length := by omega
  have hi : node.nextMoveNo < node.movelist.entries.length := by omega
  have hmov : (node.movelist.moves[m]?).getD .noMove = (node.movelist.entries[m]).1 := by
    rw [Movelist.moves, List.getElem?_map, List.getElem?_eq_getElem hm]
    rfl
  refine ⟨hm, if node.nextMoveNo ≠ m then node.movelist.swap node.nextMoveNo m else node.movelist,
    ?_, ?_, ?_⟩
  · show (match pickLoop node.remaining node.nextMoveNo (-infty) none with
      | none => _
      | some m => _) = _
    rw [h, ← hmov]
  · split
    · exact node.movelist.swap_perm hi hm
    · exact .refl _
  split
  · have hget := node.movelist.swap_getElem? hi hm
    rw [List.getElem?_eq_getElem hm] at hget
    refine ⟨hget, (node.movelist.swap_drop_perm hle hm).symm.trans ?_⟩
    obtain ⟨hlen, hval⟩ := List.getElem?_eq_some_iff.mp hget
    rw [List.drop_eq_getElem_cons hlen, hval]
  · rename_i heq
    have heq : node.nextMoveNo = m := not_not.mp heq
    subst heq
    refine ⟨List.getElem?_eq_getElem hm, ?_⟩
    rw [remaining, List.drop_eq_getElem_cons hm]

/-- **Picking takes one of the remaining moves**, or leaves only moves of the lowest score. -/
theorem pick_cases : (node.pick = (node, .noMove) ∧ ∀ e ∈ node.remaining, e.2 ≤ -infty) ∨
    ∃ movelist mov s, node.pick =
        ({ node with movelist := movelist, nextMoveNo := node.nextMoveNo + 1 }, mov) ∧
      movelist.entries.Perm node.movelist.entries ∧
      node.remaining.Perm ((mov, s) :: (node.pick).1.remaining) := by
  cases h : pickLoop node.remaining node.nextMoveNo (-infty) none with
  | none =>
    left
    refine ⟨?_, (pickLoop_none h).2⟩
    show (match pickLoop node.remaining node.nextMoveNo (-infty) none with
      | none => _
      | some m => _) = _
    rw [h]
  | some m =>
    obtain ⟨hm, movelist, hpick, hperm, _, hrest⟩ := node.pick_of_some h
    refine .inr ⟨movelist, _, (node.movelist.entries[m]).2, hpick, hperm, ?_⟩
    rw [hpick]
    exact hrest

/-- The moves that have not been picked yet. -/
def todo : List Move := node.remaining.map Prod.fst

theorem todo_eq_drop : node.todo = node.movelist.moves.drop node.nextMoveNo := List.map_drop

theorem length_todo_le : node.todo.length ≤ movelistMaxsize := by
  rw [todo_eq_drop, List.length_drop, Movelist.length_moves]
  exact (Nat.sub_le _ _).trans node.movelist.size_le

/-! ## What a search leaves as it is -/

/-- What the search of a node keeps. -/
structure Frame (node node' : Node) : Prop where
  ancestors : node'.ancestors = node.ancestors
  board : node'.board = node.board
  incheck : node'.incheck = node.incheck
  material : node'.material = node.material

theorem Frame.refl : Frame node node := ⟨rfl, rfl, rfl, rfl⟩

variable {node} {node' node'' : Node}

theorem Frame.trans (h : Frame node node') (h' : Frame node' node'') : Frame node node'' where
  ancestors := h'.ancestors.trans h.ancestors
  board := h'.board.trans h.board
  incheck := h'.incheck.trans h.incheck
  material := h'.material.trans h.material

/-- What a loop over the moves of a node keeps: also the moves, up to their order. -/
structure Keeps (node node' : Node) : Prop extends Frame node node' where
  type : node'.type = node.type
  moves : node'.movelist.moves.Perm node.movelist.moves

theorem Keeps.refl (node : Node) : Keeps node node := ⟨.refl node, rfl, .refl _⟩

theorem Keeps.trans (h : Keeps node node') (h' : Keeps node' node'') : Keeps node node'' :=
  ⟨h.toFrame.trans h'.toFrame, h'.type.trans h.type, h'.moves.trans h.moves⟩

/-- What the use of one score keeps: also the order of the moves and the place in the list. -/
structure Continues (node node' : Node) : Prop extends Frame node node' where
  type : node'.type = node.type
  moves : node'.movelist.moves = node.movelist.moves
  nextMoveNo : node'.nextMoveNo = node.nextMoveNo

theorem Continues.refl (node : Node) : Continues node node := ⟨.refl node, rfl, rfl, rfl⟩

theorem Continues.trans (h : Continues node node') (h' : Continues node' node'') :
    Continues node node'' :=
  ⟨h.toFrame.trans h'.toFrame, h'.type.trans h.type, h'.moves.trans h.moves,
    h'.nextMoveNo.trans h.nextMoveNo⟩

theorem Continues.keeps (h : Continues node node') : Keeps node node' := by
  refine ⟨h.toFrame, h.type, ?_⟩
  rw [h.moves]

theorem Continues.todo (h : Continues node node') : node'.todo = node.todo := by
  rw [todo_eq_drop, todo_eq_drop, h.moves, h.nextMoveNo]

theorem continues_setCurrentScore (node : Node) (score : Int) :
    Continues node (node.setCurrentScore score) :=
  ⟨⟨rfl, rfl, rfl, rfl⟩, rfl, node.movelist.moves_setScore _ _, rfl⟩

theorem continues_setBest (node : Node) (mov : Move) (child : Node) :
    Continues node (node.setBest mov child) := ⟨⟨rfl, rfl, rfl, rfl⟩, rfl, rfl, rfl⟩

theorem keeps_pick (node : Node) : Keeps node node.pick.1 := by
  rcases node.pick_cases with ⟨h, _⟩ | ⟨movelist, mov, s, h, hperm, _⟩
  · rw [h]
    exact .refl node
  · rw [h]
    exact ⟨⟨rfl, rfl, rfl, rfl⟩, rfl, hperm.map Prod.fst⟩

theorem remaining_pick {node : Node} (h : node.pick.2 ≠ .noMove) :
    ∃ s, node.remaining.Perm ((node.pick.2, s) :: node.pick.1.remaining) := by
  rcases node.pick_cases with ⟨heq, _⟩ | ⟨movelist, mov, s, heq, _, hperm⟩
  · rw [heq] at h
    exact absurd rfl h
  · have hmov : node.pick.2 = mov := by rw [heq]
    rw [hmov]
    exact ⟨s, hperm⟩

/-- A picked move leaves the moves that have not been picked. -/
theorem todo_pick {node : Node} (h : node.pick.2 ≠ .noMove) :
    node.todo.Perm (node.pick.2 :: node.pick.1.todo) := by
  obtain ⟨s, hperm⟩ := remaining_pick h
  exact hperm.map Prod.fst

/-- Picking, scoring and adding a killer do not touch the results of the node. -/
theorem results_pick (node : Node) :
    node.pick.1.tainted = node.tainted ∧ node.pick.1.bestLine = node.bestLine := by
  rcases node.pick_cases with ⟨h, _⟩ | ⟨movelist, mov, s, h, _⟩
  · rw [h]
    exact ⟨rfl, rfl⟩
  · rw [h]
    exact ⟨rfl, rfl⟩

theorem results_addKiller (node : Node) (mov : Move) :
    (node.addKiller mov).tainted = node.tainted ∧ (node.addKiller mov).bestLine = node.bestLine := by
  unfold addKiller
  split
  · exact ⟨rfl, rfl⟩
  · split <;> exact ⟨rfl, rfl⟩

theorem frame_addKiller (node : Node) (mov : Move) : Frame node (node.addKiller mov) := by
  unfold addKiller
  split
  · exact ⟨rfl, rfl, rfl, rfl⟩
  · split
    · exact ⟨rfl, rfl, rfl, rfl⟩
    · exact .refl node

theorem moves_scoreMoves (node : Node) (beyond : BitVec 32) (history : PerColor HistoryTable) :
    (node.scoreMoves beyond history).movelist.moves = node.movelist.moves := by
  unfold scoreMoves
  split
  · rfl
  · exact List.map_map

theorem continues_scoreMoves (node : Node) (beyond : BitVec 32) (history : PerColor HistoryTable) :
    Continues node (node.scoreMoves beyond history) := by
  refine ⟨?_, ?_, node.moves_scoreMoves beyond history, ?_⟩
  · unfold scoreMoves
    split
    · exact .refl node
    · exact ⟨rfl, rfl, rfl, rfl⟩
  · unfold scoreMoves
    split <;> rfl
  · unfold scoreMoves
    split <;> rfl

section Generation

variable [Build]

/-- The move list that `first()` works on. -/
def startList (node : Node) : Movelist :=
  match node.type with
  | .root | .unknown => node.movelist
  | .fullwidth =>
    if node.movelist.size ≠ 0 then node.movelist
    else if node.incheck then node.board.generateEscapes .empty
    else node.board.generateMoves false .empty
  | .quiesce =>
    if node.incheck then node.board.generateEscapes .empty
    else node.board.generateCaptures false .empty

/-- `first()` sets up the move list and scores it. -/
theorem start_eq {node : Node} {beyond : BitVec 32} {history : PerColor HistoryTable}
    (h : node.start beyond history = some node') :
    node' = ({ node with nextMoveNo := 0, movelist := node.startList } : Node).scoreMoves beyond
      history := by
  have hlist : ∀ ml : Movelist, node.startList = ml →
      ({ node with nextMoveNo := 0, movelist := node.startList } : Node).scoreMoves beyond history =
        ({ node with nextMoveNo := 0, movelist := ml } : Node).scoreMoves beyond history := by
    rintro _ rfl
    rfl
  unfold start at h
  simp only at h
  split at h
  · rename_i htype
    rw [hlist node.movelist (by simp only [startList, htype])]
    split at h
    · cases h
      rfl
    · cases h
  · rename_i htype
    rw [← Option.some.inj h]
    by_cases hsize : node.movelist.size ≠ 0
    · rw [hlist node.movelist (by simp only [startList, htype, if_pos hsize]), if_pos hsize]
    · rw [hlist (if node.incheck then node.board.generateEscapes .empty
        else node.board.generateMoves false .empty) (by simp only [startList, htype, if_neg hsize]),
        if_neg hsize]
      rfl
  · rename_i htype
    rw [← Option.some.inj h, hlist (if node.incheck then node.board.generateEscapes .empty
      else node.board.generateCaptures false .empty) (by simp only [startList, htype])]
    rfl
  · cases h

/-- Apart from the list, `first()` leaves the node as it is. -/
theorem continues_start {node : Node} {beyond : BitVec 32} {history : PerColor HistoryTable}
    (h : node.start beyond history = some node') :
    Continues { node with nextMoveNo := 0, movelist := node.startList } node' := by
  rw [start_eq h]
  exact continues_scoreMoves _ beyond history

theorem frame_start {node : Node} {beyond : BitVec 32} {history : PerColor HistoryTable}
    (h : node.start beyond history = some node') : Frame node node' := by
  have hc := continues_start h
  exact ⟨hc.ancestors, hc.board, hc.incheck, hc.material⟩

theorem results_start {node : Node} {beyond : BitVec 32} {history : PerColor HistoryTable}
    (h : node.start beyond history = some node') :
    node'.tainted = node.tainted ∧ node'.bestLine = node.bestLine := by
  rw [start_eq h]
  unfold scoreMoves
  split <;> exact ⟨rfl, rfl⟩

/-- After `first()` no move has been picked. -/
theorem todo_start {node : Node} {beyond : BitVec 32} {history : PerColor HistoryTable}
    (h : node.start beyond history = some node') : node'.todo = node.startList.moves := by
  rw [(continues_start h).todo, todo_eq_drop]
  exact List.drop_zero

/-- `first()` has something to do for the nodes of a full-width and of a quiescence search. -/
theorem start_isSome {node : Node} (h : node.type = .fullwidth ∨ node.type = .quiesce) (beyond : BitVec 32)
    (history : PerColor HistoryTable) : ∃ n, node.start beyond history = some n := by
  unfold start
  rcases h with h | h
  · simp only [h]
    exact ⟨_, rfl⟩
  · simp only [h]
    exact ⟨_, rfl⟩

theorem start_root {node : Node} (h : node.type = .root) (hsize : node.movelist.size ≠ 0) (beyond : BitVec 32)
    (history : PerColor HistoryTable) : ∃ n, node.start beyond history = some n := by
  unfold start
  simp only [h]
  rw [if_pos hsize]
  exact ⟨_, rfl⟩

end Generation

end Node

end HoiChess
