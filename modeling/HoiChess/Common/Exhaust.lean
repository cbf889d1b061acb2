import HoiChess.Common.Abort

/-!
# Loops that go through all moves

The move list of a node is complete if it holds every legal move of its board, and a search
of the node leaves it complete (`Runs.complete`).  A loop over the moves that is not left
early has met each of them, and counted the legal ones (`Runs.walks`).  Only a stop makes a
loop give up (`Runs.stays`).
-/

namespace HoiChess

open Chess Rules Exec

namespace Chess.Board.Sound

variable [Build] {b : Board} {ply : Ply}

theorem encode_mem_generateMoves (h : b.Sound) (hl : b.abs.Legal ply) (hch : ply.Chosen false) :
    ply.encode ∈ (b.generateMoves false .empty).moves :=
  (h.sim.mem_generateMoves h.sane h.materialOk false _).mpr ⟨ply, rfl, hl.1, hch⟩

theorem encode_mem_generateEscapes (h : b.Sound) (hc : b.inCheck = true) (hl : b.abs.Legal ply)
    (hch : ply.Chosen false) : ply.encode ∈ (b.generateEscapes .empty).moves := by
  have hmem := (h.sim.mem_filterIllegal_generateEscapes h.sane h.materialOk
    (h.inCheck_iff.mp hc) ply.encode).mpr ⟨ply, rfl, hl, hch⟩
  rw [Board.filterIllegal, Movelist.mem_filterBy] at hmem
  exact hmem.1

theorem mem_legalMoves (h : b.Sound) (mov : Move) :
    mov ∈ b.legalMoves.moves ↔ ∃ ply, mov = ply.encode ∧ b.abs.Legal ply :=
  h.sim.mem_legalMoves h.sane h.materialOk mov

end Chess.Board.Sound

/-! ## Complete lists -/

namespace Node

variable {node node' : Node}

/-- The moves include every legal move, with promotions to a queen only. -/
def Covers (node : Node) (l : List Move) : Prop :=
  ∀ ply, node.board.abs.Legal ply → ply.Chosen false → ply.encode ∈ l

/-- The move list has a property, or is yet to be made. -/
def Made (P : Board → List Move → Prop) (node : Node) : Prop :=
  node.movelist.moves = [] ∨ P node.board node.movelist.moves

/-- The move list is complete, or is yet to be made. -/
def Complete (node : Node) : Prop := node.movelist.moves = [] ∨ node.Covers node.movelist.moves

theorem Covers.congr {l l' : List Move} (h : node.Covers l) (hb : node'.board = node.board)
    (hl : l.Perm l') : node'.Covers l' := by
  intro ply hlegal hch
  rw [hb] at hlegal
  exact hl.mem_iff.mp (h ply hlegal hch)

theorem movelist_addKiller (node : Node) (mov : Move) : (node.addKiller mov).movelist = node.movelist := by
  unfold addKiller
  split
  · rfl
  · split <;> rfl

/-- No entry that remains is passed over by `pick()`. -/
def Pickable (node : Node) : Prop := ∀ e ∈ node.remaining, -infty < e.2

theorem Pickable.pick (h : node.Pickable) (hpick : node.pick.2 ≠ .noMove) : node.pick.1.Pickable := by
  obtain ⟨s, hperm⟩ := remaining_pick hpick
  exact fun e he => h e (hperm.mem_iff.mpr (List.mem_cons_of_mem _ he))

section Lists

variable [Build]

/-- A property that the lists of full-width searches have, in any order of the moves. -/
structure MakesLists (P : Board → List Move → Prop) (Good : Board → Prop) : Prop where
  perm : ∀ {b : Board} {l l' : List Move}, l.Perm l' → P b l → P b l'
  make : ∀ {node : Node}, Good node.board → node.incheck = node.board.inCheck →
    P node.board (if node.incheck then node.board.generateEscapes .empty
      else node.board.generateMoves false .empty).moves

/-- What a full-width search goes through. -/
theorem MakesLists.startList {P : Board → List Move → Prop} {Good : Board → Prop}
    (hmade : MakesLists P Good) (h : node.Made P) (htype : node.type = .fullwidth)
    (hg : Good node.board) (hcheck : node.incheck = node.board.inCheck) :
    P node.board node.startList.moves := by
  unfold Node.startList
  simp only [htype]
  split
  · rename_i hsize
    refine h.resolve_left fun hnil => hsize ?_
    show node.movelist.entries.length = 0
    rw [← Movelist.length_moves, hnil]
    rfl
  · exact hmade.make hg hcheck

/-- The lists of full-width searches are complete. -/
theorem makesLists_covers : MakesLists
    (fun b l => ∀ ply, b.abs.Legal ply → ply.Chosen false → ply.encode ∈ l) Board.Sound where
  perm hl h ply hlegal hch := hl.mem_iff.mp (h ply hlegal hch)
  make {node} hb hcheck ply hl hch := by
    split
    · rename_i hc
      exact hb.encode_mem_generateEscapes (hcheck.symm.trans hc) hl hch
    · exact hb.encode_mem_generateMoves hl hch

/-- A full-width search goes through a complete list. -/
theorem Complete.startList (h : node.Complete) (hs : node.Sound) (htype : node.type = .fullwidth) :
    node.Covers node.startList.moves :=
  makesLists_covers.startList h htype hs.board hs.incheck

/-- So does a quiescence search of a check. -/
theorem Sound.covers_escapes (hs : node.Sound) (htype : node.type = .quiesce)
    (hc : node.incheck = true) : node.Covers node.startList.moves := by
  intro ply hl hch
  unfold Node.startList
  simp only [htype, hc, if_true]
  exact hs.board.encode_mem_generateEscapes (hs.incheck.symm.trans hc) hl hch

theorem Sound.pickable_start (h : node.Sound) (htype : node.type ≠ .root) {beyond : BitVec 32}
    (hword : WordScored beyond) {history : PerColor HistoryTable}
    (hstart : node.start beyond history = some node') : node'.Pickable :=
  fun e he => h.scored_start htype hword hstart e (List.mem_of_mem_drop he)

omit [Build] in
/-- Picking ends only when nothing remains. -/
theorem Pickable.remaining_eq_nil (h : node.Pickable)
    (hlists : ∀ mov ∈ node.movelist.moves, mov.Proper) (hpick : node.pick.2 = .noMove) :
    node.remaining = [] :=
  List.eq_nil_iff_forall_not_mem.mpr fun e he =>
    absurd (h e he) (not_lt.mpr ((pick_noMove hlists hpick).2 e he))

theorem Pickable.todo_eq_nil (h : node.Pickable) (hs : node.Sound) (hpick : node.pick.2 = .noMove) :
    node.todo = [] := by
  rw [todo, h.remaining_eq_nil (fun _ => hs.proper) hpick]
  rfl

end Lists

end Node

namespace Search

/-- The loop of a node below the root. -/
def LoopKind.below : LoopKind → Prop
  | .quiesce _ _ | .search _ _ _ _ => True
  | .root _ _ => False

theorem remaining_visit {k : LoopKind} (hk : k.below) (ls : MoveLoop) (mov : Move) (child : Node)
    (r : Ret) : (({ ls.enter.taint r with node := k.note r.score (ls.enter.taint r).node } : MoveLoop).take
      mov child r).node.remaining = ls.node.remaining := by
  unfold MoveLoop.take
  simp only
  cases k with
  | root => exact hk.elim
  | quiesce | search => split <;> rfl

section Runs

variable [Build] {env : SearchEnv} {hashed : Bool}

/-- A loop is given up only after a stop. -/
def Halts (s' : Bool) : Result → Prop
  | .looped _ true | .step (.abort _) => s' = true
  | _ => True

/-- **The stop flag stays**, and without it no loop is given up. -/
theorem Runs.stays {task : Task} {s : Bool} {es : List Event} {s' : Bool} {res : Result}
    (h : Runs env hashed task s es s' res) : (s = true → s' = true) ∧ Halts s' res := by
  induction h with
  | quiesceHit | quiesceCut | quiesceLeaf | searchDraw | searchHit | nullSkip | deepenSkip | loopEnd
  | illegal | skipped => exact ⟨id, trivial⟩
  | quiesce _ ih | search _ ih | searchLeaf _ _ ih | quiesceAbort _ _ _ _ _ ih
  | quiesceDone _ _ _ _ _ ih | searchNull _ _ _ ih | nullDone _ _ ih | deepenDone _ _ ih
  | movesAbort _ _ ih | movesDone _ _ _ ih | rootAbort _ _ ih | rootDone _ _ _ ih | loopCut _ _ ih
  | scoutFull _ ih | scoutNull _ _ ih => exact ⟨ih.1, trivial⟩
  | searchMain _ _ _ _ _ ih₁ ih₂ ih₃ => exact ⟨fun h => ih₃.1 (ih₂.1 (ih₁.1 h)), trivial⟩
  | loopNext _ _ _ ih₁ ih₂ => exact ⟨fun h => ih₂.1 (ih₁.1 h), ih₂.2⟩
  | loopAbort _ _ ih => exact ih
  | late _ ih => exact ⟨fun _ => ih.1 rfl, ih.2⟩
  | visitAbort => exact ⟨fun _ => rfl, rfl⟩
  | visitCut _ _ _ hs _ _ ih | visitNext _ _ _ hs _ _ ih =>
    exact ⟨fun h => absurd (hs.symm.trans (ih.1 h)) Bool.false_ne_true, trivial⟩
  | scoutAgain _ _ _ _ ih₁ ih₂ => exact ⟨fun h => ih₂.1 (ih₁.1 h), trivial⟩

/-- A run that is not stopped at its end has not been stopped before. -/
theorem Runs.not_stopped {task : Task} {s : Bool} {es : List Event} {s' : Bool} {res : Result}
    (h : Runs env hashed task s es s' res) (hs : s' = false) : s = false := by
  rw [← Bool.not_eq_true]
  exact fun e => Bool.false_ne_true (hs.symm.trans (h.stays.1 e))

section Made

variable {P : Board → List Move → Prop} {Good : Board → Prop}

/-- What a full-width search does to a list with a property, at a board that is good for it. -/
def KeepsMade (P : Board → List Move → Prop) (Good : Board → Prop) : Task → Result → Prop
  | .search node _ depth _ _, .ret n _ | .searchBody node _ depth _ _, .ret n _ =>
    0 < depth → Good node.board → node.incheck = node.board.inCheck → node.Made P → n.Made P
  | .moves node _ _ _ _, .ret n _ | .deepen node _ _ _ _, .node n =>
    Good node.board → node.incheck = node.board.inCheck → node.Made P → n.Made P
  | _, _ => True

theorem made_probes {node n : Node} {depth alpha beta : Int} {hit : Option Int}
    (h : Probes env hashed node depth alpha beta (n, hit)) (hc : node.Made P) : n.Made P := by
  obtain ⟨hf, hm, _⟩ := frame_probes h
  unfold Node.Made
  rw [hm, hf.board]
  exact hc

/-- The list at the end of a loop over the moves of a node is the one it started with. -/
theorem made_started (hmade : Node.MakesLists P Good) {node n n' : Node} {history : PerColor HistoryTable}
    (hstart : ({ node with type := .fullwidth, historytable := some node.board.side } : Node).start
      env.beyond history = some n) (hk : n.Keeps n') (hg : Good node.board)
    (hcheck : node.incheck = node.board.inCheck) (hc : node.Made P) :
    P n'.board n'.movelist.moves := by
  have hc' : ({ node with type := .fullwidth, historytable := some node.board.side } : Node).Made P := hc
  have hlist := hmade.startList hc' rfl hg hcheck
  have hcont := Node.continues_start hstart
  have hboard : n'.board = node.board := hk.board.trans hcont.board
  rw [hboard]
  refine hmade.perm ?_ hlist
  refine .trans ?_ hk.moves.symm
  rw [hcont.moves]

/-- **A run keeps what it has made of a move list.** -/
theorem Runs.made (hmade : Node.MakesLists P Good) {task : Task} {s : Bool} {es : List Event} {s' : Bool}
    {res : Result} (h : Runs env hashed task s es s' res) : KeepsMade P Good task res := by
  induction h with
  | search _ ih => exact ih
  | searchLeaf hd => exact fun hpos => absurd hpos (not_lt.mpr hd)
  | searchDraw => exact fun _ _ _ hc => hc
  | searchHit _ hp | searchNull _ hp => exact fun _ _ _ hc => made_probes hp hc
  | searchMain _ hp _ hdeepen _ _ ih₂ ih₃ =>
    intro _ hg hcheck hc
    have hf := (frame_probes hp).1
    have hf₂ := hf.trans hdeepen.frames
    have hc₁ := ih₂ (hf.board ▸ hg) (by rw [hf.incheck, hf.board, hcheck]) (made_probes hp hc)
    exact ih₃ (hf₂.board ▸ hg) (by rw [hf₂.incheck, hf₂.board, hcheck]) hc₁
  | deepenSkip => exact fun _ _ hc => hc
  | deepenDone hd _ ih => exact fun hg hcheck hc => ih (by omega) hg hcheck hc
  | movesAbort hstart hloop =>
    exact fun hg hcheck hc => .inr (made_started hmade hstart hloop.frames hg hcheck hc)
  | @movesDone node ply depth alpha beta s history n es s' ls n' hstart hloop hn =>
    intro hg hcheck hc
    have hls : P ls.node.board ls.node.movelist.moves :=
      made_started hmade hstart hloop.frames hg hcheck hc
    rcases hn with rfl | rfl
    · exact .inr hls
    · unfold Node.Made
      rw [ls.node.movelist_addKiller, (ls.node.frame_addKiller _).board]
      exact .inr hls
  | _ => trivial

end Made

/-- **A run keeps a complete list complete.** -/
theorem Runs.complete {node n : Node} {ply : Nat} {depth alpha beta : Int} {s : Bool}
    {es : List Event} {s' : Bool} {r : Ret}
    (h : Runs env hashed (.search node ply depth alpha beta) s es s' (.ret n r)) (hd : 0 < depth)
    (hs : node.Sound) (hc : node.Complete) : n.Complete :=
  h.made Node.makesLists_covers hd hs.board hs.incheck hc

/-! ## Walks through a list -/

/-- What a loop has done with the moves of a list: the legal ones have been counted, and
those that are not skipped have been searched. -/
structure Walk (fp : Bool) (ls : MoveLoop) (l : List Move) (ls' : MoveLoop) : Prop where
  le : ls.moves ≤ ls'.moves
  counted : ls'.moves = ls.moves ↔ ∀ mov ∈ l, (ls.node.board.makeMove mov).isLegal = false
  started : ls.first = false → ls'.first = false
  searched : ls.first = true → (ls'.first = false ↔ ∃ mov ∈ l, Searched fp ls.node mov)
  unused : ls.first = true → ls'.first = true →
    ls'.alpha = ls.alpha ∧ ls'.bestscore = ls.bestscore

/-- What a visit has done with its move. -/
inductive Visited (fp : Bool) (ls : MoveLoop) (mov : Move) (ls' : MoveLoop) : Prop
  | illegal : (ls.node.board.makeMove mov).isLegal = false → ls' = ls → Visited fp ls mov ls'
  | skipped : (ls.node.board.makeMove mov).isLegal = true → ¬ Searched fp ls.node mov →
    ls' = { ls with moves := ls.moves + 1 } → Visited fp ls mov ls'
  | searched : Searched fp ls.node mov → ls'.moves = ls.moves + 1 → ls'.first = false →
    Visited fp ls mov ls'

theorem Searched.congr {fp : Bool} {node node' : Node} (hf : node.Frame node') (mov : Move) :
    Searched fp node' mov ↔ Searched fp node mov :=
  ⟨fun h => h.frame ⟨hf.ancestors.symm, hf.board.symm, hf.incheck.symm, hf.material.symm⟩,
    fun h => h.frame hf⟩

section Walk

variable {fp : Bool} {ls ls' ls'' : MoveLoop} {mov : Move} {l : List Move}

/-- No move is left. -/
theorem walk_nil (fp : Bool) (ls : MoveLoop) (node : Node) : Walk fp ls [] { ls with node := node } where
  le := le_rfl
  counted := iff_of_true rfl (List.forall_mem_nil _)
  started := id
  searched h := iff_of_false (fun h' => Bool.false_ne_true (h'.symm.trans h)) (by simp)
  unused _ _ := ⟨rfl, rfl⟩

/-- The loop is left after a search. -/
theorem walk_cut (hs : Searched fp ls.node mov) (hmoves : ls'.moves = ls.moves + 1)
    (hfirst : ls'.first = false) (hmem : mov ∈ l) : Walk fp ls l ls' where
  le := by omega
  counted := by
    refine iff_of_false (by omega) fun h => ?_
    exact Bool.false_ne_true ((h mov hmem).symm.trans hs.1)
  started _ := hfirst
  searched _ := iff_of_true hfirst ⟨mov, hmem, hs⟩
  unused _ h := absurd (hfirst.symm.trans h) Bool.false_ne_true

/-- One move, and then the others. -/
theorem Visited.walk (hf : ls.node.Frame ls'.node) (h : Visited fp ls mov ls')
    (hw : Walk fp ls' l ls'') : Walk fp ls (mov :: l) ls'' := by
  have hcounted : (∀ m ∈ l, (ls'.node.board.makeMove m).isLegal = false) ↔
      ∀ m ∈ l, (ls.node.board.makeMove m).isLegal = false := by rw [hf.board]
  have hsearched : (∃ m ∈ l, Searched fp ls'.node m) ↔ ∃ m ∈ l, Searched fp ls.node m :=
    exists_congr fun m => and_congr_right fun _ => Searched.congr hf m
  have hle := hw.le
  cases h with
  | illegal hl heq =>
    subst heq
    refine ⟨hle, ?_, hw.started, fun hfirst => ?_, hw.unused⟩
    · rw [hw.counted, List.forall_mem_cons]
      exact (and_iff_right hl).symm
    · rw [hw.searched hfirst, List.exists_mem_cons_iff]
      exact (or_iff_right fun hs => Bool.false_ne_true (hl.symm.trans hs.1)).symm
  | skipped hl hskip heq =>
    have hmoves : ls'.moves = ls.moves + 1 := by rw [heq]
    have hfirst' : ls'.first = ls.first := by rw [heq]
    have hkept : ls'.alpha = ls.alpha ∧ ls'.bestscore = ls.bestscore := by
      rw [heq]
      exact ⟨rfl, rfl⟩
    refine ⟨by omega, ?_, fun h => hw.started (hfirst'.trans h), fun hfirst => ?_, fun hfirst h => ?_⟩
    · refine iff_of_false (by omega) fun h => ?_
      exact Bool.false_ne_true ((h mov List.mem_cons_self).symm.trans hl)
    · rw [hw.searched (hfirst'.trans hfirst), hsearched, List.exists_mem_cons_iff]
      exact (or_iff_right hskip).symm
    · obtain ⟨h1, h2⟩ := hw.unused (hfirst'.trans hfirst) h
      exact ⟨h1.trans hkept.1, h2.trans hkept.2⟩
  | searched hs hmoves hfirst' =>
    refine ⟨by omega, ?_, fun _ => hw.started hfirst', fun _ => ?_, fun _ h => ?_⟩
    · refine iff_of_false (by omega) fun h => ?_
      exact Bool.false_ne_true ((h mov List.mem_cons_self).symm.trans hs.1)
    · exact iff_of_true (hw.started hfirst') ⟨mov, List.mem_cons_self, hs⟩
    · exact absurd ((hw.started hfirst').symm.trans h) Bool.false_ne_true

theorem Walk.perm {l' : List Move} (h : Walk fp ls l ls') (hl : l.Perm l') : Walk fp ls l' ls' where
  le := h.le
  counted := h.counted.trans (forall_congr' fun _ => imp_congr_left hl.mem_iff)
  started := h.started
  searched hfirst := (h.searched hfirst).trans (exists_congr fun _ => and_congr_left' hl.mem_iff)
  unused := h.unused

end Walk

/-- What a loop that is not aborted does with its moves. -/
def Walks : Task → Result → Prop
  | .loop k ls, .looped ls' false => k.below → ls.node.Sound → ls.node.Pickable →
    Walk k.fprune ls ls.node.todo ls'
  | .visit k ls mov, .step (.next ls') => k.below →
    ls'.node.remaining = ls.node.remaining ∧ Visited k.fprune ls mov ls'
  | .visit k ls mov, .step (.cut ls') =>
    Searched k.fprune ls.node mov ∧ ls'.moves = ls.moves + 1 ∧ ls'.first = false
  | _, _ => True

/-- **A loop that is not aborted meets every move**, until it is cut. -/
theorem Runs.walks {task : Task} {s : Bool} {es : List Event} {s' : Bool} {res : Result}
    (h : Runs env hashed task s es s' res) : Walks task res := by
  induction h with
  | @loopEnd k ls s hpick =>
    intro _ hs hscored
    rw [hscored.todo_eq_nil hs hpick]
    exact walk_nil _ _ _
  | @loopNext k ls s es₁ s₁ ls' es₂ s₂ ls'' aborted hpick hvisit _ ih₁ ih₂ =>
    cases aborted with
    | true => trivial
    | false =>
      intro hk hs hscored
      obtain ⟨hrest, hvisited⟩ := ih₁ hk
      have hrest : ls'.node.remaining = ls.node.pick.1.remaining := hrest
      have hsound := (hs.visit hpick).1
      have hscored' : ls'.node.Pickable := by
        unfold Node.Pickable
        rw [hrest]
        exact hscored.pick hpick
      have htodo : ls'.node.todo = ls.node.pick.1.todo := by rw [Node.todo, hrest, Node.todo]
      have hw := ih₂ hk (hvisit.frames.keeps.sound hsound) hscored'
      rw [htodo] at hw
      have hwalk := (hvisited.walk hvisit.frames.toFrame hw).perm (Node.todo_pick hpick).symm
      refine ⟨hwalk.le, hwalk.counted.trans ?_, hwalk.started, fun hfirst =>
        (hwalk.searched hfirst).trans ?_, hwalk.unused⟩
      · show (∀ mov ∈ ls.node.todo, (ls.node.pick.1.board.makeMove mov).isLegal = false) ↔ _
        rw [(Node.keeps_pick ls.node).board]
      · exact exists_congr fun m => and_congr_right fun _ =>
          Searched.congr (Node.keeps_pick ls.node).toFrame m
  | @loopCut k ls s es s' ls' hpick _ ih =>
    intro _ _ _
    obtain ⟨hs, hmoves, hfirst⟩ := ih
    have hs : Searched k.fprune ls.node ls.node.pick.2 :=
      (Searched.congr (Node.keeps_pick ls.node).toFrame _).mp hs
    exact walk_cut hs hmoves hfirst ((Node.todo_pick hpick).mem_iff.mpr List.mem_cons_self)
  | illegal hl => exact fun _ => ⟨rfl, .illegal hl rfl⟩
  | @skipped k ls mov s slot hl hskip =>
    refine fun _ => ⟨rfl, .skipped hl (fun hs => ?_) rfl⟩
    exact Bool.false_ne_true (hs.2.symm.trans hskip)
  | @late k ls mov s es s' st _ ih => exact ih
  | @visitCut k ls ls' mov s slot line es s' n r hl hskip _ _ _ hls =>
    subst hls
    exact ⟨⟨hl, hskip⟩, rfl, rfl⟩
  | @visitNext k ls ls' mov s slot line es s' n r hl hskip _ _ _ hls =>
    subst hls
    exact fun hk => ⟨remaining_visit hk ls mov n r, .searched ⟨hl, hskip⟩ rfl rfl⟩
  | _ => trivial

end Runs

end Search

end HoiChess
