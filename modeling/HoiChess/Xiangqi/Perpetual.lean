import HoiChess.Xiangqi.Positions

/-!
# Perpetual check

Of a repetition, `is_repetition` asks which side gave check with all its moves since the position
stood first.  It counts the moves and checks of the two sides on its way up the nodes, and takes
from each node the flag that was written when the node was made.  The constructor of the opening
node does not write it (`isRepetition_scoredRight_iff`).
-/

namespace HoiChess.Xiangqi

open Chess (Color)

/-- `INFTY` -/
abbrev infty : Int := 100000

/-- `DRAW` -/
abbrev draw : Int := 0

/-- A pawn steps forward, or something is taken. -/
def Move.isIrreversible (mov : Move) : Bool :=
  (mov.movPtype = some .pawn && mov.movFrom.map rnk ≠ mov.movTo.map rnk) || mov.isCapture

/-! ## Nodes -/

/-- What `is_repetition` reads of a node. -/
structure Ancestor where
  board : Board
  incheck : Bool
  playedMove : Move

/-- A node; the nodes on its way to the opening start with its parent. -/
structure Node where
  board : Board
  incheck : Bool
  playedMove : Move
  ancestors : List Ancestor

namespace Node

def ancestor (node : Node) : Ancestor := ⟨node.board, node.incheck, node.playedMove⟩

/-- The nodes on the way from a node to the opening, the node itself first. -/
def chain (node : Node) : List Ancestor := node.ancestor :: node.ancestors

/-- `Node(board)`; `incheck` stays as the memory has it. -/
def ofBoard (memory : Bool) (board : Board) : Node := ⟨board, memory, .noMove, []⟩

variable [Keys] (node : Node)

/-- `init_root()`; it asserts that there is a legal move. -/
def initRoot : Option Node :=
  if node.board.legalMoves.moves = [] then none
  else some { node with incheck := node.board.inCheck, playedMove := .noMove }

def makeMove (mov : Move) : Node where
  board := node.board.makeMove mov
  incheck := (node.board.makeMove mov).inCheck
  playedMove := mov
  ancestors := node.chain

end Node

/-! ## `is_repetition` -/

/-- `moves` and `checks`; 0 is the side to move. -/
structure Tally where
  moves : Fin 2 → Nat
  checks : Fin 2 → Nat

/-- There are two sides. -/
instance neZero_sides : NeZero 2 := ⟨by decide⟩

namespace Tally

def zero : Tally := ⟨fun _ => 0, fun _ => 0⟩

variable (t : Tally)

/-- `moves[side]++; if (p->in_check()) checks[side]++;` -/
def count (side : Fin 2) (incheck : Bool) : Tally where
  moves := Function.update t.moves side (t.moves side + 1)
  checks := if incheck then Function.update t.checks side (t.checks side + 1) else t.checks

/-- `moves[side] > 0 && checks[side] == moves[side]` -/
def always (side : Fin 2) : Bool := t.moves side > 0 && t.checks side = t.moves side

/-- The score of a repetition; plies are few, and the sums fit into their type. -/
def score (ply : Nat) : Int :=
  if t.always 0 && t.always 1 then draw
  else if t.always 0 then -infty + ply
  else if t.always 1 then infty - ply
  else draw

end Tally

namespace Node

/-- The loop of `is_repetition` above the node itself: the counts at the first node with the key. -/
def repetitionLoop (hashkey : Hashkey) : List Ancestor → Tally → Fin 2 → Option Tally
  | [], _, _ => none
  | p :: ps, t, side =>
    if p.playedMove.isIrreversible then none
    else if p.board.hashkey = hashkey then some (t.count side p.incheck)
    else repetitionLoop hashkey ps (t.count side p.incheck) (1 - side)

/-- `is_repetition(node, ply, &score)`: the score, if it is one. -/
def isRepetition (node : Node) (ply : Nat) : Option Int :=
  if node.playedMove.isIrreversible then none
  else
    (repetitionLoop node.board.hashkey node.ancestors (Tally.zero.count 1 node.incheck) 0).map
      fun t => t.score ply

end Node

/-! ## Counting turns -/

/-- Whose turn it is after `i` turns. -/
def turn (side : Fin 2) : Nat → Fin 2
  | 0 => side
  | i + 1 => turn (1 - side) i

theorem turn_eq_iff (side : Fin 2) (i : Nat) : turn side i = side ↔ i % 2 = 0 := by
  have hother : ∀ s : Fin 2, 1 - s ≠ s := by decide
  have hback : ∀ s : Fin 2, 1 - (1 - s) = s := by decide
  induction i using Nat.twoStepInduction with
  | zero => exact iff_of_true rfl rfl
  | one => exact iff_of_false (hother side) (by decide)
  | more i ih _ =>
    have hturn : turn side (i + 2) = turn side i := congrArg (fun s => turn s i) (hback side)
    rw [hturn, show turn side i = side ↔ i % 2 = 0 from ih]
    omega

theorem turn_one (j : Nat) : (turn 1 j = 1 ↔ j % 2 = 0) ∧ (turn 1 j = 0 ↔ j % 2 = 1) := by
  have h1 := turn_eq_iff 1 j
  have htwo : ∀ s : Fin 2, s = 0 ↔ s ≠ 1 := by decide
  exact ⟨h1, by rw [htwo, ne_eq, h1]; omega⟩

namespace Tally

/-- The sides take turns. -/
def countAll (t : Tally) (side : Fin 2) : List Bool → Tally
  | [] => t
  | c :: cs => countAll (t.count side c) (1 - side) cs

/-- There are no more checks than moves. -/
def Sound (t : Tally) : Prop := ∀ s, t.checks s ≤ t.moves s

variable {t : Tally} {side s : Fin 2} {c : Bool}

theorem moves_count (t : Tally) (side s : Fin 2) (c : Bool) :
    (t.count side c).moves s = t.moves s + if s = side then 1 else 0 := by
  show Function.update t.moves side (t.moves side + 1) s = _
  by_cases h : s = side
  · rw [h, Function.update_self, if_pos rfl]
  · rw [Function.update_of_ne h, if_neg h, Nat.add_zero]

theorem checks_count (t : Tally) (side s : Fin 2) (c : Bool) :
    (t.count side c).checks s = t.checks s + if s = side ∧ c = true then 1 else 0 := by
  unfold count
  cases c with
  | false => simp
  | true =>
    by_cases h : s = side
    · simp [h]
    · simp [h]

theorem Sound.count (h : t.Sound) (side : Fin 2) (c : Bool) : (t.count side c).Sound := by
  intro s
  have := h s
  rw [moves_count, checks_count]
  by_cases hs : s = side
  · rw [if_pos hs]
    split <;> omega
  · rw [if_neg hs, if_neg fun e => hs e.1]
    exact this

/-- **All moves of a side gave check** exactly if its counts stay equal. -/
theorem countAll_checks (h : t.Sound) (side s : Fin 2) (cs : List Bool) :
    (t.countAll side cs).checks s = (t.countAll side cs).moves s ↔
      t.checks s = t.moves s ∧ ∀ i, turn side i = s → cs[i]? ≠ some false := by
  induction cs generalizing t side with
  | nil => simp [countAll]
  | cons c cs ih =>
    have hstep : (t.count side c).checks s = (t.count side c).moves s ↔
        t.checks s = t.moves s ∧ (side = s → c ≠ false) := by
      have := h s
      rw [moves_count, checks_count]
      by_cases hs : s = side
      · subst hs
        cases c with
        | false =>
          rw [if_neg (by simp), if_pos rfl]
          exact iff_of_false (by omega) fun e => e.2 rfl rfl
        | true => simp
      · simp [hs, Ne.symm hs]
    have hturns : (∀ i, turn side i = s → (c :: cs)[i]? ≠ some false) ↔
        (side = s → c ≠ false) ∧ ∀ i, turn (1 - side) i = s → cs[i]? ≠ some false := by
      constructor
      · intro hall
        refine ⟨fun hs hc => hall 0 hs (by rw [hc]; rfl), fun i hi => hall (i + 1) hi⟩
      · rintro ⟨h0, hrest⟩ i hi
        cases i with
        | zero => exact fun hc => h0 hi (Option.some.inj hc)
        | succ i => exact hrest i hi
    show ((t.count side c).countAll (1 - side) cs).checks s =
      ((t.count side c).countAll (1 - side) cs).moves s ↔ _
    rw [ih (h.count side c), hstep, hturns, and_assoc]

theorem moves_countAll (t : Tally) (side s : Fin 2) (cs : List Bool) :
    0 < (t.countAll side cs).moves s ↔ 0 < t.moves s ∨ ∃ i < cs.length, turn side i = s := by
  induction cs generalizing t side with
  | nil => simp [countAll]
  | cons c cs ih =>
    have hturns : (∃ i < (c :: cs).length, turn side i = s) ↔
        side = s ∨ ∃ i < cs.length, turn (1 - side) i = s := by
      constructor
      · rintro ⟨i, hi, hs⟩
        cases i with
        | zero => exact Or.inl hs
        | succ i => exact Or.inr ⟨i, by simpa using hi, hs⟩
      · rintro (hs | ⟨i, hi, hs⟩)
        · exact ⟨0, by simp, hs⟩
        · exact ⟨i + 1, by simpa using hi, hs⟩
    show 0 < ((t.count side c).countAll (1 - side) cs).moves s ↔ _
    rw [ih, hturns, moves_count, ← or_assoc]
    refine or_congr_left ?_
    by_cases hs : s = side
    · simp [hs]
    · simp [hs, Ne.symm hs]

/-- **What the counts say** after turns that begin with the other side's. -/
theorem always_countAll {cs : List Bool} (h2 : 2 ≤ cs.length) (s : Fin 2) :
    (zero.countAll 1 cs).always s = true ↔ ∀ i, turn 1 i = s → cs[i]? ≠ some false := by
  have hsound : zero.Sound := fun s => Nat.le_refl 0
  have hturn : ∃ i < cs.length, turn 1 i = s := by
    have hboth : ∀ s : Fin 2, turn 1 0 = s ∨ turn 1 1 = s := by decide
    rcases hboth s with h | h
    · exact ⟨0, by omega, h⟩
    · exact ⟨1, by omega, h⟩
  have hmoves := (moves_countAll zero 1 s cs).mpr (Or.inr hturn)
  unfold always
  rw [Bool.and_eq_true, decide_eq_true_eq, decide_eq_true_eq, and_iff_right hmoves,
    countAll_checks hsound]
  exact and_iff_right rfl

/-- A missed perpetual check of the other side changes the score, unless `INFTY - ply` is a draw. -/
theorem score_eq_iff {A B M : Prop} [Decidable A] [Decidable B] {ply : Nat}
    (hside : t.always 0 = true ↔ A) (hother : t.always 1 = true ↔ B ∧ ¬ M) :
    (t.score ply = if A ∧ ¬ B then -infty + ply else if B ∧ ¬ A then infty - ply else draw) ↔
      (M ∧ B → (ply : Int) = infty) := by
  unfold Tally.score
  by_cases hA : A
  · have h0 : t.always 0 = true := hside.mpr hA
    by_cases hB : B
    · by_cases hM : M
      · have h1 : t.always 1 = false := Bool.eq_false_iff.mpr fun h => (hother.mp h).2 hM
        simp [h0, h1, hA, hB, hM, infty, draw]
        omega
      · have h1 : t.always 1 = true := hother.mpr ⟨hB, hM⟩
        simp [h0, h1, hA, hB, hM]
    · have h1 : t.always 1 = false := Bool.eq_false_iff.mpr fun h => hB (hother.mp h).1
      simp [h0, h1, hA, hB]
  · have h0 : t.always 0 = false := Bool.eq_false_iff.mpr fun h => hA (hside.mp h)
    by_cases hB : B
    · by_cases hM : M
      · have h1 : t.always 1 = false := Bool.eq_false_iff.mpr fun h => (hother.mp h).2 hM
        simp [h0, h1, hA, hB, hM, infty, draw]
        omega
      · have h1 : t.always 1 = true := hother.mpr ⟨hB, hM⟩
        simp [h0, h1, hA, hB, hM]
    · have h1 : t.always 1 = false := Bool.eq_false_iff.mpr fun h => hB (hother.mp h).1
      simp [h0, h1, hA, hB]

end Tally

/-- **Where the loop ends**, and what it has counted till then. -/
theorem repetitionLoop_eq_some {hashkey : Hashkey} {ps : List Ancestor} {t t' : Tally}
    {side : Fin 2} (h : Node.repetitionLoop hashkey ps t side = some t') :
    ∃ n, (∃ p, ps[n]? = some p ∧ p.board.hashkey = hashkey) ∧
      (∀ i < n, ∀ p, ps[i]? = some p → p.board.hashkey ≠ hashkey) ∧
      t' = t.countAll side ((ps.take (n + 1)).map Ancestor.incheck) := by
  induction ps generalizing t side with
  | nil => cases h
  | cons p ps ih =>
    rw [Node.repetitionLoop] at h
    split at h
    · cases h
    split at h
    · rename_i hkey
      cases h
      exact ⟨0, ⟨p, rfl, hkey⟩, fun i hi => absurd hi (Nat.not_lt_zero i), rfl⟩
    · rename_i hkey
      obtain ⟨n, ⟨q, hq, hkq⟩, hfirst, ht⟩ := ih h
      refine ⟨n + 1, ⟨q, hq, hkq⟩, fun i hi r hr => ?_, ht⟩
      cases i with
      | zero =>
        cases hr
        exact hkey
      | succ i => exact hfirst i (by omega) r hr

/-! ## The nodes of a game and of the search tree -/

section Tree

variable [Keys]

/-- The last node of the chain that `main()` makes of the moves of a game. -/
def gameNode (memory : Bool) (opening : Board) (game : List Move) : Node :=
  game.foldl Node.makeMove (Node.ofBoard memory opening)

/-- The node that the search reaches from the root by the moves of `path`. -/
def treeNode (memory : Bool) (opening : Board) (game path : List Move) : Option Node :=
  (gameNode memory opening game).initRoot.map fun root => path.foldl Node.makeMove root

variable {memory : Bool} {opening : Board} {game path movs : List Move} {node : Node}

theorem position_append (movs l : List Move) {i : Nat} (hi : i ≤ movs.length) :
    position opening (movs ++ l) i = position opening movs i := by
  rw [position, position, List.take_append_of_le_length hi]

theorem position_length_concat (movs : List Move) (mov : Move) :
    position opening (movs ++ [mov]) (movs.length + 1) =
      (position opening movs movs.length).makeMove mov := by
  rw [position_succ opening (by simp), position_append movs [mov] le_rfl]
  congr 1
  simp

/-- The nodes of a chain have the positions from the last back to the opening. -/
structure Chained (opening : Board) (movs : List Move) (incheck : Nat → Bool) (node : Node) :
    Prop where
  length : node.chain.length = movs.length + 1
  nodes : ∀ j ≤ movs.length, ∃ mov, node.chain[j]? =
    some ⟨position opening movs (movs.length - j), incheck (movs.length - j), mov⟩

theorem Chained.board {incheck : Nat → Bool} (h : Chained opening movs incheck node) :
    node.board = position opening movs movs.length := by
  obtain ⟨m, hm⟩ := h.nodes 0 (Nat.zero_le _)
  exact congrArg Ancestor.board (Option.some.inj hm)

/-- A node that is made goes on with the chain of its parent. -/
theorem Chained.makeMove {incheck : Nat → Bool} (h : Chained opening movs incheck node) (mov : Move)
    (hcheck : incheck (movs.length + 1) =
      (position opening (movs ++ [mov]) (movs.length + 1)).inCheck) :
    Chained opening (movs ++ [mov]) incheck (node.makeMove mov) := by
  refine ⟨?_, fun j hj => ?_⟩
  · rw [List.length_append, List.length_singleton, ← h.length]
    rfl
  rw [List.length_append, List.length_singleton] at hj ⊢
  cases j with
  | zero =>
    refine ⟨mov, ?_⟩
    rw [Nat.sub_zero, hcheck, position_length_concat, ← h.board]
    rfl
  | succ j =>
    obtain ⟨m, hm⟩ := h.nodes j (by omega)
    refine ⟨m, ?_⟩
    rw [Nat.add_sub_add_right, position_append movs [mov] (by omega)]
    exact hm

/-- The flags that the nodes of a game have: the opening node has what the memory held. -/
theorem chained_gameNode (memory : Bool) (opening : Board) (game movs : List Move)
    (hmovs : game <+: movs) : Chained opening game
      (fun i => if i = 0 then memory else (position opening movs i).inCheck)
      (gameNode memory opening game) := by
  induction game using List.reverseRecOn with
  | nil =>
    refine ⟨rfl, fun j hj => ?_⟩
    obtain rfl : j = 0 := by simpa using hj
    exact ⟨.noMove, rfl⟩
  | append_singleton game mov ih =>
    obtain ⟨l, rfl⟩ := hmovs
    have hprefix : game <+: game ++ [mov] ++ l := by
      rw [List.append_assoc]
      exact List.prefix_append game _
    have hnode : gameNode memory opening (game ++ [mov]) =
        (gameNode memory opening game).makeMove mov := by
      unfold gameNode
      rw [List.foldl_append]
      rfl
    rw [hnode]
    refine (ih hprefix).makeMove mov ?_
    rw [if_neg (Nat.succ_ne_zero _), position_append (game ++ [mov]) l (by simp)]

/-- The flag at the `i`-th position: `init_root` writes it at the root, also if that is the
opening. -/
def checkFlag (memory : Bool) (opening : Board) (game movs : List Move) (i : Nat) : Bool :=
  if i = 0 ∧ game ≠ [] then memory else (position opening movs i).inCheck

/-- The chain of the root. -/
theorem chained_root {root : Node} (h : (gameNode memory opening game).initRoot = some root)
    (path : List Move) :
    Chained opening game (checkFlag memory opening game (game ++ path)) root := by
  have hchain := chained_gameNode memory opening game (game ++ path) (List.prefix_append game path)
  unfold Node.initRoot at h
  split at h
  · cases h
  cases h
  refine ⟨hchain.length, fun j hj => ?_⟩
  cases j with
  | zero =>
    have hflag : checkFlag memory opening game (game ++ path) game.length =
        (gameNode memory opening game).board.inCheck := by
      unfold checkFlag
      rw [if_neg (fun e => e.2 (List.length_eq_zero_iff.mp e.1)), position_append game path le_rfl,
        hchain.board]
    refine ⟨.noMove, ?_⟩
    rw [Nat.sub_zero, hflag, ← hchain.board]
    rfl
  | succ j =>
    have hne : game ≠ [] := by
      rintro rfl
      exact absurd hj (Nat.not_succ_le_zero j)
    have hflag : ∀ i, checkFlag memory opening game (game ++ path) i =
        if i = 0 then memory else (position opening (game ++ path) i).inCheck := by
      intro i
      unfold checkFlag
      simp only [and_iff_left hne]
    obtain ⟨m, hm⟩ := hchain.nodes (j + 1) hj
    refine ⟨m, ?_⟩
    rw [hflag]
    exact hm

/-- **The chain of a node of the search tree.** -/
theorem chained_treeNode (h : treeNode memory opening game path = some node) :
    Chained opening (game ++ path) (checkFlag memory opening game (game ++ path)) node := by
  obtain ⟨root, hroot, rfl⟩ := Option.map_eq_some_iff.mp h
  have hpath : ∀ l, l <+: path → Chained opening (game ++ l)
      (checkFlag memory opening game (game ++ path)) (l.foldl Node.makeMove root) := by
    intro l
    induction l using List.reverseRecOn with
    | nil =>
      intro _
      rw [List.append_nil]
      exact chained_root hroot path
    | append_singleton l mov ih =>
      rintro ⟨tail, htail⟩
      have hl := ih ⟨mov :: tail, by rw [← htail, List.append_assoc]; rfl⟩
      have hmovs : game ++ path = game ++ l ++ [mov] ++ tail := by
        rw [← htail, List.append_assoc, List.append_assoc, List.append_assoc]
      rw [List.foldl_append, ← List.append_assoc]
      refine hl.makeMove mov ?_
      unfold checkFlag
      rw [if_neg (fun e => Nat.succ_ne_zero _ e.1), hmovs,
        position_append (game ++ l ++ [mov]) tail (by simp [Nat.add_assoc])]
  exact hpath path (List.prefix_refl path)

/-! ## Who gave check -/

/-- Of the positions before the last one that equal it, the nearest. -/
structure Nearest (opening : Board) (movs : List Move) (i : Nat) : Prop where
  lt : i < movs.length
  same : (position opening movs i).Same (position opening movs movs.length)
  nearest : ∀ j, i < j → j < movs.length →
    ¬ (position opening movs j).Same (position opening movs movs.length)

/-- Every move of the side that leads to a position from the `i`-th on gives check. -/
def AlwaysChecks (opening : Board) (movs : List Move) (i : Nat) (c : Color) : Prop :=
  ∀ j < movs.length, i ≤ j + 1 → (position opening movs j).side = c →
    (position opening movs (j + 1)).inCheck = true

instance (opening : Board) (movs : List Move) (i : Nat) (c : Color) :
    Decidable (AlwaysChecks opening movs i c) := by
  unfold AlwaysChecks; infer_instance

/-- The score of a repetition of the `i`-th position: who alone gave perpetual check has lost. -/
def verdict (opening : Board) (movs : List Move) (i ply : Nat) : Int :=
  let side := (position opening movs movs.length).side
  if AlwaysChecks opening movs i side ∧ ¬ AlwaysChecks opening movs i side.xside then -infty + ply
  else if AlwaysChecks opening movs i side.xside ∧ ¬ AlwaysChecks opening movs i side then infty - ply
  else draw

/-- The score is that of the positions back to the nearest one that equals the last. -/
def ScoredRight (opening : Board) (movs : List Move) (ply : Nat) (score : Int) : Prop :=
  ∃ i, Nearest opening movs i ∧ score = verdict opening movs i ply

/-- Equal keys mean equal positions, among those of a game. -/
def KeysTell (opening : Board) (movs : List Move) : Prop :=
  ∀ i ≤ movs.length, ∀ j ≤ movs.length,
    (position opening movs i).hashkey = (position opening movs j).hashkey →
      (position opening movs i).Same (position opening movs j)

/-- The positions go back to the opening of a game with moves, whose flag happens not to be set,
and the opponent has given check with every move. -/
structure FlagMissed (memory : Bool) (opening : Board) (game path : List Move) : Prop where
  moved : game ≠ []
  nearest : Nearest opening (game ++ path) 0
  unset : memory = false
  checks : AlwaysChecks opening (game ++ path) 0
    (position opening (game ++ path) (game ++ path).length).side.xside

instance (opening : Board) (movs : List Move) : Decidable (KeysTell opening movs) := by
  unfold KeysTell; infer_instance

theorem Nearest.unique {i j : Nat} (hi : Nearest opening movs i) (hj : Nearest opening movs j) :
    i = j := by
  rcases Nat.lt_trichotomy i j with h | h | h
  · exact absurd hj.same (hi.nearest j h hj.lt)
  · exact h
  · exact absurd hi.same (hj.nearest i h hi.lt)

/-- **What `is_repetition` has found and counted** when it returns a score. -/
theorem isRepetition_eq_some (hopen : opening.Paired) (hgen : Generated opening (game ++ path))
    (htell : KeysTell opening (game ++ path))
    (hnode : treeNode memory opening game path = some node) {ply : Nat} {score : Int}
    (hrep : node.isRepetition ply = some score) : ∃ i t, Nearest opening (game ++ path) i ∧
      score = Tally.score t ply ∧ ∀ s, t.always s = true ↔ ∀ j ≤ (game ++ path).length - i,
        turn 1 j = s →
          checkFlag memory opening game (game ++ path) ((game ++ path).length - j) = true := by
  have hchain := chained_treeNode hnode
  generalize game ++ path = movs at *
  unfold Node.isRepetition at hrep
  split at hrep
  · cases hrep
  obtain ⟨t, hloop, rfl⟩ := Option.map_eq_some_iff.mp hrep
  obtain ⟨n, ⟨p, hp, hkey⟩, hfirst, ht⟩ := repetitionLoop_eq_some hloop
  have hlt : n + 1 < node.chain.length := Nat.succ_lt_succ (List.getElem?_eq_some_iff.mp hp).1
  have hle : n + 1 ≤ movs.length := by
    rw [hchain.length] at hlt
    omega
  have hboard : ∀ j ≤ movs.length, ∀ q, node.chain[j]? = some q →
      q.board = position opening movs (movs.length - j) ∧
        q.incheck = checkFlag memory opening game movs (movs.length - j) := by
    intro j hj q hq
    obtain ⟨m, hm⟩ := hchain.nodes j hj
    rw [hq] at hm
    cases hm
    exact ⟨rfl, rfl⟩
  refine ⟨movs.length - (n + 1), t, ⟨by omega, ?_, fun j hj hjN hsame => ?_⟩, rfl, fun s => ?_⟩
  · refine htell _ (Nat.sub_le _ _) _ le_rfl ?_
    rw [← (hboard (n + 1) hle p hp).1, hkey, hchain.board]
  · obtain ⟨q, hq⟩ : ∃ q, node.chain[movs.length - j]? = some q := by
      obtain ⟨m, hm⟩ := hchain.nodes (movs.length - j) (Nat.sub_le _ _)
      exact ⟨_, hm⟩
    obtain ⟨d, hd⟩ : ∃ d, movs.length - j = d + 1 := ⟨movs.length - j - 1, by omega⟩
    have hqboard := (hboard _ (Nat.sub_le _ _) q hq).1
    rw [hd] at hq
    refine hfirst d (by omega) q hq ?_
    rw [hqboard, hchain.board, Nat.sub_sub_self (by omega)]
    exact hashkey_eq_of_same hopen hgen (by omega) le_rfl hsame
  · have hall : t = Tally.zero.countAll 1 ((node.chain.take (n + 2)).map Ancestor.incheck) := ht
    have hlen : ((node.chain.take (n + 2)).map Ancestor.incheck).length = n + 2 := by
      rw [List.length_map, List.length_take]
      omega
    rw [hall, Tally.always_countAll (by omega)]
    refine forall_congr' fun j => ?_
    rw [List.getElem?_map, List.getElem?_take]
    rw [show movs.length - (movs.length - (n + 1)) = n + 1 by omega]
    by_cases hj : j < n + 2
    · obtain ⟨m, hm⟩ := hchain.nodes j (by omega)
      rw [if_pos hj, hm]
      constructor
      · exact fun h _ hturn => by simpa using h hturn
      · exact fun h hturn => by simpa using h (by omega) hturn
    · rw [if_neg hj]
      exact iff_of_true (fun _ => by simp) fun hle _ => absurd hle (by omega)

/-- The moves of a side lead to every other position, counted back from the last one. -/
theorem alwaysChecks_iff {i : Nat} (hi : i ≤ movs.length) (c : Color) (r : Nat)
    (hc : ∀ j < movs.length, (position opening movs j).side = c ↔ (movs.length - j) % 2 = r) :
    AlwaysChecks opening movs i c ↔ ∀ j ≤ movs.length - i, j < movs.length → (j + 1) % 2 = r →
      (position opening movs (movs.length - j)).inCheck = true := by
  constructor
  · intro h j hj hlt hmod
    have := h (movs.length - (j + 1)) (by omega) (by omega)
      ((hc _ (by omega)).mpr (by rw [Nat.sub_sub_self (by omega)]; exact hmod))
    rwa [show movs.length - (j + 1) + 1 = movs.length - j by omega] at this
  · intro h j hj hij hside
    have := h (movs.length - (j + 1)) (by omega) (by omega)
      (by rw [show movs.length - (j + 1) + 1 = movs.length - j by omega]; exact (hc j hj).mp hside)
    rwa [Nat.sub_sub_self (by omega)] at this

/-- The side that is to move at the end was to move an even number of moves before. -/
theorem side_back {j : Nat} (hj : j ≤ movs.length) : (position opening movs j).side =
    (position opening movs movs.length).side ↔ (movs.length - j) % 2 = 0 := by
  have hparity : (position opening movs (j + (movs.length - j))).side =
      (position opening movs j).side ↔ (movs.length - j) % 2 = 0 :=
    side_position opening (by omega)
  rw [show j + (movs.length - j) = movs.length by omega] at hparity
  rw [← hparity, eq_comm]

theorem xside_back {j : Nat} (hj : j ≤ movs.length) : (position opening movs j).side =
    (position opening movs movs.length).side.xside ↔ (movs.length - j) % 2 = 1 := by
  have hne : (position opening movs j).side = (position opening movs movs.length).side.xside ↔
      (position opening movs j).side ≠ (position opening movs movs.length).side :=
    ⟨fun h => h ▸ Chess.xside_ne _, Chess.eq_xside_of_ne⟩
  rw [hne, ne_eq, side_back hj]
  omega

/-- Only the opening may have a flag that is not written. -/
theorem checkFlag_back {j : Nat} (hj : j < movs.length) :
    checkFlag memory opening game movs (movs.length - j) =
      (position opening movs (movs.length - j)).inCheck := by
  unfold checkFlag
  rw [if_neg fun e => absurd e.1 (by omega)]

section Flags

variable {i : Nat} (hnear : Nearest opening movs i)

include hnear

theorem Nearest.even : (movs.length - i) % 2 = 0 := (side_back hnear.lt.le).mp hnear.same.side

/-- The flags that are counted for the side to move. -/
theorem flags_side_iff : (∀ j ≤ movs.length - i, turn 1 j = 0 →
    checkFlag memory opening game movs (movs.length - j) = true) ↔
      AlwaysChecks opening movs i (position opening movs movs.length).side := by
  have heven := hnear.even
  rw [alwaysChecks_iff hnear.lt.le _ 0 fun j hj => side_back hj.le]
  refine forall_congr' fun j => forall_congr' fun hj => ?_
  rw [(turn_one j).2]
  constructor
  · intro h hjlt hmod
    rw [← checkFlag_back hjlt]
    exact h (by omega)
  · intro h hmod
    have hjlt : j < movs.length := by omega
    rw [checkFlag_back hjlt]
    exact h hjlt (by omega)

/-- Those counted for its opponent, among them the one of the opening. -/
theorem flags_xside_iff : (∀ j ≤ movs.length - i, turn 1 j = 1 →
    checkFlag memory opening game movs (movs.length - j) = true) ↔
      AlwaysChecks opening movs i (position opening movs movs.length).side.xside ∧
        ¬ (game ≠ [] ∧ i = 0 ∧ memory = false) := by
  have hlt := hnear.lt
  have heven := hnear.even
  rw [alwaysChecks_iff hlt.le _ 1 fun j hj => xside_back hj.le]
  constructor
  · intro h
    refine ⟨fun j hj hjlt hmod => ?_, fun ⟨hne, h0, hmem⟩ => ?_⟩
    · rw [← checkFlag_back hjlt]
      exact h j hj ((turn_one j).1.mpr (by omega))
    · have hopening := h movs.length (by omega) ((turn_one _).1.mpr (by omega))
      unfold checkFlag at hopening
      rw [if_pos ⟨Nat.sub_self _, hne⟩, hmem] at hopening
      cases hopening
  · rintro ⟨hchecks, hnot⟩ j hj hmod
    have hmod := (turn_one j).1.mp hmod
    by_cases hjlt : j < movs.length
    · rw [checkFlag_back hjlt]
      exact hchecks j hj hjlt (by omega)
    · obtain rfl : i = 0 := by omega
      rw [show movs.length - j = 0 by omega]
      unfold checkFlag
      by_cases hne : game = []
      · rw [if_neg fun e => e.2 hne, hnear.same.inCheck]
        exact hchecks 0 (Nat.zero_le _) hlt rfl
      · rw [if_pos ⟨rfl, hne⟩]
        exact Bool.eq_true_of_not_eq_false fun hmem => hnot ⟨hne, rfl, hmem⟩

end Flags

/-- **Perpetual check is scored against the right side** unless the flag of the opening node was
needed and is not set; with `ply = INFTY` all scores would be the same. -/
theorem isRepetition_scoredRight_iff (hopen : opening.Paired)
    (hgen : Generated opening (game ++ path)) (htell : KeysTell opening (game ++ path))
    (hnode : treeNode memory opening game path = some node) {ply : Nat} {score : Int}
    (hrep : node.isRepetition ply = some score) :
    ScoredRight opening (game ++ path) ply score ↔
      (FlagMissed memory opening game path → (ply : Int) = infty) := by
  obtain ⟨i, t, hnear, hscore, halways⟩ := isRepetition_eq_some hopen hgen htell hnode hrep
  have hright : ScoredRight opening (game ++ path) ply score ↔
      score = verdict opening (game ++ path) i ply := by
    constructor
    · rintro ⟨j, hj, hs⟩
      rwa [hj.unique hnear] at hs
    · exact fun hs => ⟨i, hnear, hs⟩
  have hmissed : FlagMissed memory opening game path ↔
      (game ≠ [] ∧ i = 0 ∧ memory = false) ∧ AlwaysChecks opening (game ++ path) i
        (position opening (game ++ path) (game ++ path).length).side.xside := by
    constructor
    · rintro ⟨hne, hzero, hmem, hchecks⟩
      obtain rfl := hzero.unique hnear
      exact ⟨⟨hne, rfl, hmem⟩, hchecks⟩
    · rintro ⟨⟨hne, rfl, hmem⟩, hchecks⟩
      exact ⟨hne, hnear, hmem, hchecks⟩
  rw [hright, hmissed]
  have hside := (halways 0).trans (flags_side_iff hnear)
  have hother := (halways 1).trans (flags_xside_iff hnear)
  rw [hscore]
  exact Tally.score_eq_iff hside hother

end Tree

/-! ## Perpetual check on an opening board -/

section Cycle

/-- Keys that tell the squares apart. -/
@[reducible] def squareKeys : Keys := ⟨fun _ _ sq => BitVec.ofNat 64 (sq.val + 1), 0x100#64⟩

/-- White's king stands on the file of a rook. -/
def checkedFen : String := "5k3/9/9/9/3r5/9/9/9/9/3K5 w 0 1"

def checkedBoard : Board :=
  let _ := squareKeys
  ((Board.clear.placePiece 86 .black .king).placePiece 48 .black .rook).placePiece 3 .white .king

/-- The king steps aside, and the rook follows. -/
def cycleGame : List Move := [.normal 3 4 .king, .normal 48 49 .rook]

/-- Both go back. -/
def cyclePath : List Move := [.normal 4 3 .king, .normal 49 48 .rook]

theorem parseFen_checkedFen : @Board.parseFen squareKeys checkedFen = .accepted checkedBoard := by
  let _ := squareKeys
  have hfields : scanFen (checkedFen.toList.takeWhile (fun c => c ≠ '\x00')) =
      some ⟨"5k3/9/9/9/3r5/9/9/9/9/3K5".toList, 'w', 0, 1⟩ := by decide
  have hcalls : placeLoop "5k3/9/9/9/3r5/9/9/9/9/3K5".toList 9 0 =
      ([⟨9, 5, (.black, .king)⟩, ⟨5, 3, (.black, .rook)⟩, ⟨0, 3, (.white, .king)⟩], true) := by
    decide
  have hplaced : Board.clear.placeAll [⟨9, 5, (.black, .king)⟩, ⟨5, 3, (.black, .rook)⟩,
      ⟨0, 3, (.white, .king)⟩] = some checkedBoard := by
    have h1 : (Placing.mk 9 5 (.black, .king)).sq = some 86 := by decide
    have h2 : (Placing.mk 5 3 (.black, .rook)).sq = some 48 := by decide
    have h3 : (Placing.mk 0 3 (.white, .king)).sq = some 3 := by decide
    simp only [Board.placeAll, h1, h2, h3]
    rfl
  have hside : Chess.Board.sideOfChar 'w' = some .white := by decide
  have hset : { checkedBoard.setSide .white with movecnt50 := 0, moveno := 1 } = checkedBoard := by
    rw [show checkedBoard.setSide .white = checkedBoard from rfl]
    rfl
  have hrun : Board.parseFen checkedFen = checkedBoard.checked := by
    unfold Board.parseFen
    rw [hfields]
    simp only [Board.parseFenFields, hcalls, hplaced, hside, if_true, hset]
  have hvalid : checkedBoard.isValid = true := by decide
  have hwalk : checkedBoard.kingsFacingWalk ≠ none := by decide
  have hlegal : checkedBoard.isLegal = true := by decide
  rw [hrun]
  unfold Board.checked
  rw [hvalid, if_neg (by simp), if_neg hwalk, if_pos hlegal]

theorem generated_cycle : @Generated squareKeys checkedBoard (cycleGame ++ cyclePath) := by
  let _ := squareKeys
  refine ⟨?_, ?_, ?_, ?_, trivial⟩
  all_goals decide +kernel

theorem keysTell_cycle : @KeysTell squareKeys checkedBoard (cycleGame ++ cyclePath) := by
  let _ := squareKeys
  decide

/-- The opening position again, two plies below the root. -/
theorem nearest_cycle : @Nearest squareKeys checkedBoard (cycleGame ++ cyclePath) 0 := by
  let _ := squareKeys
  have hsame : (position checkedBoard (cycleGame ++ cyclePath) 0).Same
      (position checkedBoard (cycleGame ++ cyclePath) 4) := by decide
  have hother : ∀ j < 4, 0 < j → ¬ (position checkedBoard (cycleGame ++ cyclePath) j).Same
      (position checkedBoard (cycleGame ++ cyclePath) 4) := by decide
  exact ⟨by decide, hsame, fun j hj hlt => hother j hlt hj⟩

/-- The score that is returned where the flag of the opening node is not set. -/
theorem isRepetition_cycle : ∃ node,
    @treeNode squareKeys false checkedBoard cycleGame cyclePath = some node ∧
      node.isRepetition 2 = some draw := by
  let _ := squareKeys
  have hrun : (treeNode false checkedBoard cycleGame cyclePath).bind (fun node => node.isRepetition 2) =
      some draw := by decide +kernel
  obtain ⟨node, hnode, hrep⟩ := Option.bind_eq_some_iff.mp hrun
  exact ⟨node, hnode, hrep⟩

/-- The condition is about this run: the draw is wrong because of the flag. -/
theorem isRepetition_scoredRight_cycle : ∃ node,
    @treeNode squareKeys false checkedBoard cycleGame cyclePath = some node ∧
      (@ScoredRight squareKeys checkedBoard (cycleGame ++ cyclePath) 2 draw ↔
        (@FlagMissed squareKeys false checkedBoard cycleGame cyclePath → ((2 : Nat) : Int) = infty)) := by
  let _ := squareKeys
  obtain ⟨node, hnode, hrep⟩ := isRepetition_cycle
  exact ⟨node, hnode, isRepetition_scoredRight_iff (paired_of_parseFen parseFen_checkedFen)
    generated_cycle keysTell_cycle hnode hrep⟩

/-- **A perpetual check of the other side is taken for a draw.** -/
theorem perpetual_missed : @Board.parseFen squareKeys checkedFen = .accepted checkedBoard ∧
    @Generated squareKeys checkedBoard (cycleGame ++ cyclePath) ∧
    @KeysTell squareKeys checkedBoard (cycleGame ++ cyclePath) ∧ ∃ node,
      @treeNode squareKeys false checkedBoard cycleGame cyclePath = some node ∧
        node.isRepetition 2 = some draw ∧
          ¬ @ScoredRight squareKeys checkedBoard (cycleGame ++ cyclePath) 2 draw := by
  let _ := squareKeys
  obtain ⟨node, hnode, hrep⟩ := isRepetition_cycle
  refine ⟨parseFen_checkedFen, generated_cycle, keysTell_cycle, node, hnode, hrep, ?_⟩
  rintro ⟨i, hi, hscore⟩
  obtain rfl := nearest_cycle.unique hi
  have hverdict : verdict checkedBoard (cycleGame ++ cyclePath) 0 2 = infty - 2 := by decide +kernel
  rw [hverdict] at hscore
  exact absurd hscore (by decide)

end Cycle

end HoiChess.Xiangqi
