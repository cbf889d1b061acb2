import HoiChess.Common.Game
import HoiChess.Common.Node

/-!
# Draws and repetitions in the search tree

`main()` turns the entries of the game into a chain of nodes, the last of which is
prepared by `init_root` and is the root of the search tree.  `is_repetition` walks up
that chain until it meets an irreversible move.  The move that led to the root has
been overwritten by `NO_MOVE`, which reads as a pawn move, so that the walk ends
below the root (`Linked.isRepetition_iff`).
-/

namespace HoiChess

open Chess

namespace Node

/-- The nodes on the way from a node to the opening, the node itself first. -/
def chain (node : Node) : List Ancestor := node.ancestor :: node.ancestors

/-- The loop of `is_repetition` above the node itself. -/
def repetitionLoop (hashkey : Hashkey) : List Ancestor → Bool
  | [] => false
  | p :: ps =>
    if p.playedMove.isIrreversible then false
    else if p.board.hashkey = hashkey then true
    else repetitionLoop hashkey ps

/-- `is_repetition(node, ply, &score)`; the score is `DRAW` if it is one. -/
def isRepetition (node : Node) : Bool :=
  if node.playedMove.isIrreversible then false
  else repetitionLoop node.board.hashkey node.ancestors

/-- `is_draw(node, ply, &score)`: the score of a position that is a draw by rule. -/
def isDraw (node : Node) : Option Int :=
  if node.board.movecnt50 ≥ 100 then some draw
  else if node.board.isMaterialDraw then some draw
  else if node.isRepetition then some draw
  else none

end Node

/-- `NO_MOVE` reads as a pawn move. -/
theorem noMove_isIrreversible : Move.noMove.isIrreversible = true := by decide

/-- A last reversible move does not change what is reversible before it. -/
theorem forall_drop_append {movs : List Move} {mov : Move} {i : Nat} (hi : i ≤ movs.length)
    (hmov : mov.isIrreversible = false) :
    (∀ m ∈ (movs ++ [mov]).drop i, m.isIrreversible = false) ↔
      ∀ m ∈ movs.drop i, m.isIrreversible = false := by
  rw [List.drop_append_of_le_length hi]
  simp only [List.mem_append, List.mem_singleton]
  constructor
  · intro h m hm
    exact h m (Or.inl hm)
  · rintro h m (hm | rfl)
    · exact h m hm
    · exact hmov

section Chains

variable [Build]

/-- The last node of the chain that `main()` makes of the entries of a game. -/
def gameNode (opening : Board) (game : List Move) : Node :=
  game.foldl (fun (node : Node) mov => node.makeMove mov none) (Node.ofBoard opening)

/-- The root as `main()` prepares it for a game. -/
def gameRoot (opening : Board) (game : List Move) : Option Node := (gameNode opening game).initRoot

/-- The nodes below the root of a game: `path` are the moves that lead from the root to
the node.  What the search writes into a node does not change its place. -/
inductive Linked (opening : Board) (game : List Move) : List Move → Node → Prop
  | root {node : Node} : gameRoot opening game = some node → Linked opening game [] node
  | move {path : List Move} {node : Node} (mov : Move) (slot : Option Color) :
    Linked opening game path node → Linked opening game (path ++ [mov]) (node.makeMove mov slot)
  | write {path : List Move} {node node' : Node} : Linked opening game path node →
    node'.chain = node.chain → Linked opening game path node'

/-- The position after the first `i` of the moves. -/
def position (opening : Board) (movs : List Move) (i : Nat) : Board :=
  (movs.take i).foldl Board.makeMove opening

/-- After `i` moves the position had the key of the last position, and no irreversible
move was played from there on. -/
def Repeats (opening : Board) (movs : List Move) (i : Nat) : Prop :=
  i < movs.length ∧
    (position opening movs i).hashkey = (position opening movs movs.length).hashkey ∧
      ∀ mov ∈ movs.drop i, mov.isIrreversible = false

/-- A repeated position that the walk can see: below the root, and reached by a move that
is reversible itself. -/
def RepeatsBelow (opening : Board) (game path : List Move) (i : Nat) : Prop :=
  game.length < i ∧ Repeats opening (game ++ path) i ∧
    ∀ mov ∈ (game ++ path).drop (i - 1), mov.isIrreversible = false

variable {opening : Board} {game path : List Move} {node : Node}

theorem position_append_of_le {movs : List Move} {i : Nat} (h : i ≤ movs.length) (l : List Move) :
    position opening (movs ++ l) i = position opening movs i := by
  rw [position, position, List.take_append_of_le_length h]

theorem position_length (movs : List Move) :
    position opening movs movs.length = movs.foldl Board.makeMove opening := by
  rw [position, List.take_length]

theorem gameNode_board (opening : Board) (game : List Move) :
    (gameNode opening game).board = game.foldl Board.makeMove opening := by
  have h : ∀ node : Node, (game.foldl (fun (node : Node) mov => node.makeMove mov none) node).board =
      game.foldl Board.makeMove node.board := by
    induction game with
    | nil => exact fun _ => rfl
    | cons mov game ih => exact fun node => ih _
  exact h _

theorem initRoot_board {node root : Node} (h : Node.initRoot node = some root) :
    root.board = node.board ∧ root.playedMove = .noMove := by
  unfold Node.initRoot at h
  simp only at h
  split at h
  · cases h
  · cases h
    exact ⟨rfl, rfl⟩

/-- The board of a node is the position that the moves lead to. -/
theorem Linked.board (h : Linked opening game path node) :
    node.board = position opening (game ++ path) (game ++ path).length := by
  rw [position_length]
  induction h with
  | root hroot =>
    rw [(initRoot_board hroot).1, gameNode_board, List.append_nil]
  | move mov slot _ ih =>
    rw [← List.append_assoc, List.foldl_append, ← ih]
    rfl
  | write _ hc ih =>
    have hb := congrArg (fun l => l.head?.map Ancestor.board) hc
    simp only [Node.chain, List.head?_cons, Option.map_some, Option.some_inj] at hb
    exact hb.trans ih

/-- **The loop sees the positions below the root** that are not hidden by an irreversible
move, the one that led to them included. -/
theorem Linked.loop_iff (h : Linked opening game path node) (hashkey : Hashkey) :
    Node.repetitionLoop hashkey node.chain = true ↔
      ∃ i, game.length < i ∧ i ≤ (game ++ path).length ∧
        (position opening (game ++ path) i).hashkey = hashkey ∧
          ∀ mov ∈ (game ++ path).drop (i - 1), mov.isIrreversible = false := by
  induction h with
  | root hroot =>
    refine iff_of_false ?_ ?_
    · rw [Node.chain, Node.repetitionLoop, Node.ancestor, (initRoot_board hroot).2,
        if_pos noMove_isIrreversible]
      exact Bool.false_ne_true
    · rintro ⟨i, h1, h2, _⟩
      rw [List.append_nil] at h2
      omega
  | write _ hc ih =>
    rw [hc]
    exact ih
  | @move path node mov slot hl ih =>
    have hlen : (game ++ (path ++ [mov])).length = (game ++ path).length + 1 := by
      simp only [List.length_append, List.length_singleton]
      omega
    have hge : game.length ≤ (game ++ path).length := by simp
    have hboard := (hl.move mov slot).board
    rw [hlen] at hboard ⊢
    rw [← List.append_assoc] at hboard ⊢
    show (if mov.isIrreversible = true then false
      else if (node.makeMove mov slot).board.hashkey = hashkey then true
      else Node.repetitionLoop hashkey node.chain) = true ↔ _
    by_cases hirr : mov.isIrreversible = true
    · rw [if_pos hirr]
      refine iff_of_false Bool.false_ne_true ?_
      rintro ⟨i, _, h2, _, h4⟩
      have hmem : mov ∈ ((game ++ path) ++ [mov]).drop (i - 1) := by
        rw [List.drop_append_of_le_length (by omega)]
        exact List.mem_append_right _ (List.mem_singleton_self _)
      rw [h4 mov hmem] at hirr
      exact Bool.false_ne_true hirr
    · have hrev : mov.isIrreversible = false := Bool.not_eq_true _ ▸ hirr
      rw [if_neg hirr]
      by_cases hkey : (node.makeMove mov slot).board.hashkey = hashkey
      · rw [if_pos hkey]
        refine iff_of_true rfl ⟨(game ++ path).length + 1, by omega, Nat.le_refl _, ?_, ?_⟩
        · rw [← hboard]
          exact hkey
        · rw [Nat.add_sub_cancel, forall_drop_append (Nat.le_refl _) hrev, List.drop_length]
          exact fun m hm => absurd hm List.not_mem_nil
      · rw [if_neg hkey, ih]
        constructor
        · rintro ⟨i, h1, h2, h3, h4⟩
          refine ⟨i, h1, by omega, ?_, ?_⟩
          · rw [position_append_of_le h2]
            exact h3
          · exact (forall_drop_append (by omega) hrev).mpr h4
        · rintro ⟨i, h1, h2, h3, h4⟩
          have hne : i ≠ (game ++ path).length + 1 := by
            rintro rfl
            rw [← hboard] at h3
            exact hkey h3
          have hle : i ≤ (game ++ path).length := by omega
          refine ⟨i, h1, hle, ?_, (forall_drop_append (by omega) hrev).mp h4⟩
          rw [position_append_of_le hle] at h3
          exact h3

/-- The root was reached by no move, every other node by the last move of its path. -/
theorem Linked.split (h : Linked opening game path node) :
    (path = [] ∧ node.playedMove = .noMove) ∨
      ∃ path' mov parent, path = path' ++ [mov] ∧ node.playedMove = mov ∧
        node.ancestors = Node.chain parent ∧ Linked opening game path' parent := by
  induction h with
  | root hroot => exact Or.inl ⟨rfl, (initRoot_board hroot).2⟩
  | @move path node mov slot hl _ => exact Or.inr ⟨path, mov, node, rfl, rfl, rfl, hl⟩
  | write _ hc ih =>
    simp only [Node.chain, List.cons.injEq] at hc
    have hplayed := congrArg Ancestor.playedMove hc.1
    rw [hc.2]
    exact ih.imp (And.imp_right hplayed.trans) fun ⟨path', mov, parent, h1, h2, h3⟩ =>
      ⟨path', mov, parent, h1, hplayed.trans h2, h3⟩

/-- **What `is_repetition` finds.** -/
theorem Linked.isRepetition_iff (h : Linked opening game path node) :
    node.isRepetition = true ↔ ∃ i, RepeatsBelow opening game path i := by
  unfold Node.isRepetition
  rw [h.board]
  rcases h.split with ⟨rfl, hplayed⟩ | ⟨path', mov, parent, rfl, hplayed, hanc, hl⟩
  · rw [hplayed, if_pos noMove_isIrreversible]
    refine iff_of_false Bool.false_ne_true ?_
    rintro ⟨i, h1, ⟨h2, _⟩, _⟩
    rw [List.append_nil] at h2
    omega
  · have hlen : (game ++ (path' ++ [mov])).length = (game ++ path').length + 1 := by
      simp only [List.length_append, List.length_singleton]
      omega
    rw [hplayed, hanc]
    unfold RepeatsBelow Repeats
    rw [hlen, ← List.append_assoc]
    by_cases hirr : mov.isIrreversible = true
    · rw [if_pos hirr]
      refine iff_of_false Bool.false_ne_true ?_
      rintro ⟨i, _, ⟨h2, _, h4⟩, _⟩
      have hmem : mov ∈ ((game ++ path') ++ [mov]).drop i := by
        rw [List.drop_append_of_le_length (by omega)]
        exact List.mem_append_right _ (List.mem_singleton_self _)
      rw [h4 mov hmem] at hirr
      exact Bool.false_ne_true hirr
    · have hrev : mov.isIrreversible = false := Bool.not_eq_true _ ▸ hirr
      rw [if_neg hirr, hl.loop_iff]
      constructor
      · rintro ⟨i, h1, h2, h3, h4⟩
        have hall : ∀ m ∈ ((game ++ path') ++ [mov]).drop (i - 1), m.isIrreversible = false :=
          (forall_drop_append (by omega) hrev).mpr h4
        refine ⟨i, h1, ⟨by omega, ?_, fun m hm => hall m ?_⟩, hall⟩
        · rw [position_append_of_le h2]
          exact h3
        · exact List.drop_subset_drop_left _ (Nat.sub_le _ _) hm
      · rintro ⟨i, h1, ⟨h2, h3, _⟩, h4⟩
        have hle : i ≤ (game ++ path').length := by omega
        refine ⟨i, h1, hle, ?_, (forall_drop_append (by omega) hrev).mp h4⟩
        rw [position_append_of_le hle] at h3
        exact h3

/-- **When the walk finds exactly the repetitions**: unless all repeated positions are at
the root, before it, or directly behind an irreversible move. -/
theorem Linked.isRepetition_exact_iff (h : Linked opening game path node) :
    (node.isRepetition = true ↔ ∃ i, Repeats opening (game ++ path) i) ↔
      ((∃ i, Repeats opening (game ++ path) i) → ∃ i, RepeatsBelow opening game path i) := by
  rw [h.isRepetition_iff]
  constructor
  · exact fun hiff => hiff.mpr
  · exact fun himp => ⟨fun ⟨i, hi⟩ => ⟨i, hi.2.1⟩, himp⟩

end Chains

/-- Both sides move a knight out, and White moves it back. -/
def knightsOut : List Move :=
  [.normal 6 21 (some .knight), .normal 62 45 (some .knight), .normal 21 6 (some .knight)]

/-- Black moves it back, too: the opening position again. -/
def knightBack : Move := .normal 45 62 (some .knight)

theorem linked_knightBack : ∃ b, @Board.parseFen sampleBuild openingFen = .accepted b ∧
    (∃ node, @Linked sampleBuild b knightsOut [knightBack] node) ∧
    @Repeats sampleBuild b (knightsOut ++ [knightBack]) 0 := by
  let _ := sampleBuild
  have hrun : (Board.parseFen openingFen).holds (fun b =>
      (gameRoot b knightsOut).isSome && decide ((position b (knightsOut ++ [knightBack]) 0).hashkey =
        (position b (knightsOut ++ [knightBack]) 4).hashkey)) = true := by
    decide +kernel
  obtain ⟨b, hb, htest⟩ := FenResult.holds_eq_true.mp hrun
  rw [Bool.and_eq_true, decide_eq_true_iff] at htest
  obtain ⟨root, hroot⟩ := Option.isSome_iff_exists.mp htest.1
  refine ⟨b, hb, ⟨_, (Linked.root hroot).move knightBack none⟩, by decide, htest.2, ?_⟩
  decide

/-- A position of the game is repeated in the tree, and the walk stops at the root. -/
theorem repetition_of_the_game_missed : ∃ b, @Board.parseFen sampleBuild openingFen = .accepted b ∧
    ∃ node, @Linked sampleBuild b knightsOut [knightBack] node ∧
      ¬ (node.isRepetition = true ↔ ∃ i, @Repeats sampleBuild b (knightsOut ++ [knightBack]) i) := by
  let _ := sampleBuild
  obtain ⟨b, hb, ⟨node, hl⟩, hrep⟩ := linked_knightBack
  refine ⟨b, hb, node, hl, fun hiff => ?_⟩
  obtain ⟨i, h1, h2, _⟩ := hl.isRepetition_iff.mp (hiff.mpr ⟨0, hrep⟩)
  have h1 : 3 < i := h1
  have h2 : i < 4 := h2.1
  omega

theorem isRepetition_exact_knightBack : ∃ b, @Board.parseFen sampleBuild openingFen = .accepted b ∧
    ∃ node, @Linked sampleBuild b knightsOut [knightBack] node ∧
      ((node.isRepetition = true ↔ ∃ i, @Repeats sampleBuild b (knightsOut ++ [knightBack]) i) ↔
        ((∃ i, @Repeats sampleBuild b (knightsOut ++ [knightBack]) i) →
          ∃ i, @RepeatsBelow sampleBuild b knightsOut [knightBack] i)) := by
  let _ := sampleBuild
  obtain ⟨b, hb, ⟨node, hl⟩, _⟩ := linked_knightBack
  exact ⟨b, hb, node, hl, hl.isRepetition_exact_iff⟩

end HoiChess
