import HoiChess.Chess.Fresh
import HoiChess.Chess.ParseMove
import HoiChess.Common.SearchRuns

/-!
# Sound nodes

A node is sound if its board stands for a sane position of the rules, its cached fields
agree with the board, and its move list holds pseudo-legal moves.  The root is sound, every
child that the search goes to is, and a run of the search keeps it so (`Runs.sound`).
-/

namespace HoiChess

open Chess Rules

namespace Chess.Board

/-- The words that stand for pseudo-legal moves. -/
def Lists (b : Board) (mov : Move) : Prop := ∃ ply, mov = ply.encode ∧ b.abs.Pseudo ply

variable {b : Board}

theorem Lists.ptype {mov : Move} (h : b.Lists mov) : ∃ p, mov.ptype = some p := by
  obtain ⟨ply, rfl, _⟩ := h
  exact ⟨_, (describes_encode ply).ptype⟩

theorem Lists.ne_noMove {mov : Move} (h : b.Lists mov) : mov ≠ .noMove := by
  rintro rfl
  obtain ⟨ply, hply, hp⟩ := h
  have hd := describes_encode ply
  rw [← hply] at hd
  have hsq : ply.src = ply.dst := hd.fromSq.symm.trans hd.toSq
  exact hp.src_ne_dst hsq

theorem Lists.proper {mov : Move} (h : b.Lists mov) : mov.Proper where
  ptype := h.ptype
  ne_noMove := h.ne_noMove
  promoteTo := by
    obtain ⟨ply, rfl, _⟩ := h
    exact ⟨_, ply.promoteTo_encode⟩

end Chess.Board

/-- Where a pawn may promote at all, it may become a queen. -/
theorem Chess.Rules.Position.exists_chosen {pos : Position} (h : ∃ ply, pos.Legal ply) :
    ∃ ply, pos.Legal ply ∧ ply.Chosen false := by
  obtain ⟨ply, hl⟩ := h
  cases ply with
  | promote src dst p cap =>
    obtain ⟨⟨hc, hlast, hp⟩, hsafe⟩ := hl
    have hking : p ≠ .king := by
      rintro rfl
      exact absurd hp (by decide)
    exact ⟨.promote src dst .queen cap, ⟨⟨hc, hlast, by decide⟩,
      (safe_promote (by decide)).mpr ((safe_promote hking).mp hsafe)⟩, List.mem_cons_self⟩
  | move src dst p cap => exact ⟨_, hl, trivial⟩
  | enpassant src dst => exact ⟨_, hl, trivial⟩
  | castle f => exact ⟨_, hl, trivial⟩

/-! ## Scores and boards -/

namespace Node

theorem toNat_matValue_le (beyond : BitVec 32) (p : Piece) :
    (matValue beyond (some p)).toNat ≤ 900 := by
  show (BitVec.ofInt 32 (matValues p)).toNat ≤ 900
  cases p <;> decide

/-- The score of a capture as a number: it wraps where the gain is beyond the range of an `int`. -/
theorem lt_exchangeScore_iff {matAtk matVic : BitVec 32} (h : matAtk.toNat ≤ 900) :
    -infty < exchangeScore matAtk matVic ↔
      matVic.toNat < 2147483648 - 800000 + matAtk.toNat ∨
        4294967296 - 900000 + matAtk.toNat < matVic.toNat := by
  have hvic := matVic.isLt
  have hinfty : infty = 100000 := rfl
  unfold exchangeScore
  simp only [gt_iff_lt, BitVec.lt_def]
  split
  · rw [BitVec.toInt_eq_toNat_cond, BitVec.toNat_sub, BitVec.toNat_add, BitVec.toNat_ofNat]
    split <;> omega
  · split
    · rw [BitVec.toInt_eq_toNat_cond, BitVec.toNat_sub, BitVec.toNat_add, BitVec.toNat_ofNat]
      split <;> omega
    · omega

/-- The word behind `mat_values` leaves what is scored with it a score that `pick()` takes: the
pawn that promotes, and on boards where the men are not where they are listed, a man that captures. -/
def WordScored (word : BitVec 32) : Prop :=
  (∀ q : Piece, -infty < exchangeScore (matValue word (some .pawn)) (word + matValue word (some q))) ∧
    ∀ p : Piece, -infty < exchangeScore (matValue word (some p)) word

instance (word : BitVec 32) : Decidable (WordScored word) := by
  unfold WordScored
  infer_instance

theorem wordScored_iff (word : BitVec 32) :
    WordScored word ↔ word.toNat < 2147483648 - 800800 ∨ 4294967296 - 899100 < word.toNat := by
  have hword := word.isLt
  unfold WordScored
  simp only [lt_exchangeScore_iff (toNat_matValue_le word _)]
  constructor
  · rintro ⟨hq, hp⟩
    have h1 := hq .queen
    have h2 := hp .queen
    rw [BitVec.toNat_add] at h1
    change (word.toNat + 900) % 4294967296 < _ + 100 ∨ _ + 100 < (word.toNat + 900) % 4294967296 at h1
    change word.toNat < _ + 900 ∨ _ + 900 < word.toNat at h2
    omega
  · intro h
    refine ⟨fun q => ?_, fun p => ?_⟩
    · have hq := toNat_matValue_le word q
      rw [BitVec.toNat_add]
      change (word.toNat + (matValue word (some q)).toNat) % 4294967296 < _ + 100 ∨
        _ + 100 < (word.toNat + (matValue word (some q)).toNat) % 4294967296
      omega
    · have hp := toNat_matValue_le word p
      omega

/-- A capture is scored within the table, or with a word behind it that leaves a score. -/
theorem lt_captureScore {beyond : BitVec 32} {mov : Move} (hmov : mov.Proper)
    (hword : mov.capPtype = none → WordScored beyond) : -infty < captureScore beyond mov := by
  obtain ⟨p, hp⟩ := hmov.ptype
  obtain ⟨q, hq⟩ := hmov.promoteTo
  unfold captureScore
  cases hcap : mov.capPtype with
  | some c =>
    have hpv := toNat_matValue_le beyond p
    have hqv := toNat_matValue_le beyond q
    have hcv := toNat_matValue_le beyond c
    rw [hp, lt_exchangeScore_iff hpv]
    left
    split
    · rw [hq, BitVec.toNat_add]
      omega
    · rw [show matValue beyond (some c) + 0 = matValue beyond (some c) from BitVec.add_zero _]
      omega
  | none =>
    have hscored := hword hcap
    split
    · rename_i hpromo
      have hpawn : mov.ptype = some .pawn := if_pos hpromo
      rw [hpawn, hq]
      exact hscored.1 q
    · rw [hp, show matValue beyond none + 0 = beyond from BitVec.add_zero _]
      exact hscored.2 p

/-- A move of a known man gets a score that `pick()` does not pass over. -/
theorem lt_moveScore (node : Node) {beyond : BitVec 32} (history : PerColor HistoryTable) {mov : Move}
    (hmov : mov.Proper) (hword : mov.capPtype = none → WordScored beyond) :
    -infty < node.moveScore beyond history mov := by
  unfold moveScore
  split
  · decide
  split
  · decide
  split
  · exact lt_captureScore hmov hword
  · have hinfty : infty = 100000 := rfl
    split <;> split <;> omega

end Node

section Boards

variable [Build]

namespace Chess.Board

/-- The board stands for a position of the rules that play can reach. -/
structure Sound (b : Board) : Prop where
  sim : Sim b b.abs
  sane : Sane b.abs
  materialOk : MaterialOk b.abs

end Chess.Board

theorem Chess.Sim.sound {b : Board} {pos : Position} (h : Sim b pos) (hs : Sane pos)
    (hm : MaterialOk pos) : b.Sound := by
  obtain rfl := h.abs_eq
  exact ⟨h, hs, hm⟩

theorem Chess.Reached.sound {b : Board} (h : Reached b) : b.Sound := by
  obtain ⟨pos, hsim, hp⟩ := h.sim
  exact hsim.sound hp.sane hp.materialOk

namespace Chess.Board.Sound

variable {b : Board}

theorem abs_makeMove (h : b.Sound) {ply : Ply} (hp : b.abs.Pseudo ply) :
    (b.makeMove ply.encode).abs = b.abs.apply ply := (h.sim.makeMove h.sane hp).abs_eq

/-- A legal move leads to a sound board. -/
theorem makeMove (h : b.Sound) {ply : Ply} (hl : b.abs.Legal ply) : (b.makeMove ply.encode).Sound :=
  (h.sim.makeMove h.sane hl.1).sound (h.sane.apply hl) (h.materialOk.apply h.sane hl.1)

theorem inCheck_iff (h : b.Sound) : b.inCheck = true ↔ b.abs.InCheck :=
  h.sim.inCheck (h.sane.king_exists _)

/-- So does passing, when not in check. -/
theorem makeNull (h : b.Sound) (hc : b.inCheck = false) : (b.makeMove .null).Sound := by
  refine h.sim.makeNull.sound (h.sane.pass ?_) h.materialOk.pass
  rw [← h.inCheck_iff, hc]
  exact Bool.false_ne_true

/-- A move is legal exactly if the program finds it legal. -/
theorem isLegal_iff (h : b.Sound) {ply : Ply} (hp : b.abs.Pseudo ply) :
    (b.makeMove ply.encode).isLegal = true ↔ b.abs.Legal ply :=
  (h.sim.isLegalMove h.sane hp).trans (and_iff_right hp).symm

theorem lists_generateMoves (h : b.Sound) {allpromo : Bool} {mov : Move}
    (hm : mov ∈ (b.generateMoves allpromo .empty).moves) : b.Lists mov :=
  h.sim.of_mem_generateMoves h.sane hm

theorem lists_generateCaptures (h : b.Sound) {allpromo : Bool} {mov : Move}
    (hm : mov ∈ (b.generateCaptures allpromo .empty).moves) : b.Lists mov :=
  h.sim.of_mem_generateCaptures h.sane hm

theorem lists_generateEscapes (h : b.Sound) {mov : Move}
    (hm : mov ∈ (b.generateEscapes .empty).moves) : b.Lists mov :=
  h.sim.of_mem_generateEscapes h.sane hm

end Chess.Board.Sound

/-! ## Nodes -/

namespace Node

/-- The node agrees with its board, which is sound. -/
structure Sound (node : Node) : Prop where
  board : node.board.Sound
  incheck : node.incheck = node.board.inCheck
  material : node.material = node.board.materialDifference
  lists : ∀ mov ∈ node.movelist.moves, node.board.Lists mov

variable {node node' : Node}

theorem Keeps.sound (hk : Keeps node node') (h : node.Sound) : node'.Sound where
  board := by
    rw [hk.board]
    exact h.board
  incheck := by
    rw [hk.incheck, hk.board]
    exact h.incheck
  material := by
    rw [hk.material, hk.board]
    exact h.material
  lists mov hmov := by
    rw [hk.board]
    exact h.lists mov (hk.moves.mem_iff.mp hmov)

/-- The search goes on from a sound node to sound children. -/
theorem Sound.makeMove (h : node.Sound) {mov : Move} (hlist : node.board.Lists mov)
    (slot : Option Color) (hl : (node.makeMove mov slot).board.isLegal = true) (line : PvLine) :
    ({ node.makeMove mov slot with pvline := line } : Node).Sound := by
  obtain ⟨ply, rfl, hp⟩ := hlist
  exact ⟨h.board.makeMove ((h.board.isLegal_iff hp).mp hl), rfl, rfl, nofun⟩

theorem Sound.makeNull (h : node.Sound) (hc : node.incheck = false) (slot : Option Color) :
    (node.makeMove .null slot).Sound := by
  rw [h.incheck] at hc
  exact ⟨h.board.makeNull hc, rfl, rfl, nofun⟩

/-- `first()` sets up a list of pseudo-legal moves. -/
theorem Sound.lists_startList (h : node.Sound) : ∀ mov ∈ node.startList.moves, node.board.Lists mov := by
  intro mov hmov
  unfold startList at hmov
  split at hmov
  · exact h.lists mov hmov
  · exact h.lists mov hmov
  · split at hmov
    · exact h.lists mov hmov
    · split at hmov
      · exact h.board.lists_generateEscapes hmov
      · exact h.board.lists_generateMoves hmov
  · split at hmov
    · exact h.board.lists_generateEscapes hmov
    · exact h.board.lists_generateCaptures hmov

theorem Sound.start (h : node.Sound) {beyond : BitVec 32} {history : PerColor HistoryTable}
    (hstart : node.start beyond history = some node') : node'.Sound := by
  have hc := continues_start hstart
  refine hc.keeps.sound ⟨h.board, h.incheck, h.material, h.lists_startList⟩

theorem Sound.addKiller (h : node.Sound) (mov : Move) : (node.addKiller mov).Sound := by
  unfold Node.addKiller
  split
  · exact ⟨h.board, h.incheck, h.material, h.lists⟩
  · split
    · exact ⟨h.board, h.incheck, h.material, h.lists⟩
    · exact h

/-- Other fields do not matter. -/
theorem Sound.congr (h : node.Sound) (hf : Frame node node') (hm : node'.movelist = node.movelist) :
    node'.Sound := by
  have hk : Keeps { node with type := node'.type } node' :=
    ⟨⟨hf.1, hf.2, hf.3, hf.4⟩, rfl, by rw [hm]⟩
  exact hk.sound ⟨h.board, h.incheck, h.material, h.lists⟩

/-- The node at the end of a loop that started from `node`, apart from its type. -/
theorem Sound.started (h : node.Sound) {m n : Node} {beyond : BitVec 32} {history : PerColor HistoryTable}
    (hstart : m.start beyond history = some n) (hk : n.Keeps node') (hf : node.Frame m)
    (hm : m.movelist = node.movelist) : node'.Sound := hk.sound ((h.congr hf hm).start hstart)

/-- `init_root` does its work where there is a legal move. -/
theorem exists_initRoot {board : Board} (hb : board.Sound) (h : ∃ ply, board.abs.Legal ply) :
    ∃ root, (Node.ofBoard board).initRoot = some root := by
  obtain ⟨ply, hl, hch⟩ := Position.exists_chosen h
  have hmem := (hb.sim.mem_filterIllegal_generateMoves hb.sane hb.materialOk false ply.encode).mpr
    ⟨ply, rfl, hl, hch⟩
  have hlist : (Node.ofBoard board).generateAllMoves.movelist.moves ≠ [] := List.ne_nil_of_mem hmem
  unfold initRoot
  simp only
  split
  · rename_i hnil
    exact absurd hnil hlist
  · exact ⟨_, rfl⟩

theorem board_initRoot {board : Board} {root : Node} (h : (Node.ofBoard board).initRoot = some root) :
    root.board = board := by
  unfold initRoot at h
  simp only at h
  split at h
  · cases h
  · cases h
    rfl

/-- The root of a search is sound. -/
theorem sound_initRoot {board : Board} (hb : board.Sound) {root : Node}
    (h : (Node.ofBoard board).initRoot = some root) : root.Sound := by
  unfold initRoot at h
  simp only at h
  split at h
  · cases h
  · cases h
    refine ⟨hb, rfl, rfl, fun mov hmov => ?_⟩
    have hmov : mov ∈ (board.filterIllegal (board.generateMoves false .empty)).moves := hmov
    rw [Board.filterIllegal, Movelist.mem_filterBy] at hmov
    exact hb.lists_generateMoves hmov.1

/-! ## Picking -/

/-- Every entry has a score that `pick()` does not pass over. -/
def Scored (node : Node) : Prop := ∀ e ∈ node.movelist.entries, -infty < e.2

/-- After `first()` the moves of a node below the root have the scores that it gives them. -/
theorem scored_start (htype : node.type ≠ .root) {beyond : BitVec 32} {history : PerColor HistoryTable}
    (hscore : ∀ mov ∈ node.startList.moves, -infty < node.moveScore beyond history mov)
    (hstart : node.start beyond history = some node') : node'.Scored := by
  rw [start_eq hstart]
  intro e he
  unfold scoreMoves at he
  rw [if_neg htype] at he
  obtain ⟨e, hmem, rfl⟩ := List.mem_map.mp he
  exact hscore e.1 (List.mem_map_of_mem hmem)

theorem Sound.scored_start (h : node.Sound) (htype : node.type ≠ .root) {beyond : BitVec 32}
    (hword : WordScored beyond) {history : PerColor HistoryTable}
    (hstart : node.start beyond history = some node') : node'.Scored :=
  Node.scored_start htype (fun mov hmov =>
    node.lt_moveScore history (h.lists_startList mov hmov).proper fun _ => hword) hstart

omit [Build] in
/-- When picking ends, no scored move is left. -/
theorem pick_noMove (hlists : ∀ mov ∈ node.movelist.moves, mov.Proper)
    (hpick : node.pick.2 = .noMove) : node.pick.1 = node ∧ ∀ e ∈ node.remaining, e.2 ≤ -infty := by
  rcases node.pick_cases with ⟨heq, hlow⟩ | ⟨movelist, mov, s, heq, _, hperm⟩
  · exact ⟨by rw [heq], hlow⟩
  · have hmem : (mov, s) ∈ node.remaining := hperm.mem_iff.mpr List.mem_cons_self
    have hmov : node.pick.2 = mov := by rw [heq]
    have hproper := hlists mov (List.mem_map_of_mem (List.mem_of_mem_drop hmem))
    exact absurd (hmov.symm.trans hpick) hproper.ne_noMove

theorem Sound.proper (h : node.Sound) {mov : Move} (hmov : mov ∈ node.movelist.moves) : mov.Proper :=
  (h.lists mov hmov).proper

/-- What a visit may rely on. -/
theorem Sound.visit (h : node.Sound) (hpick : node.pick.2 ≠ .noMove) :
    node.pick.1.Sound ∧ node.pick.1.board.Lists node.pick.2 ∧
      node.pick.2 ∈ node.pick.1.movelist.moves := by
  have hk := keeps_pick node
  have hmem := (todo_pick hpick).mem_iff.mpr List.mem_cons_self
  rw [todo_eq_drop] at hmem
  have hmem := hk.moves.mem_iff.mpr (List.mem_of_mem_drop hmem)
  exact ⟨hk.sound h, (hk.sound h).lists _ hmem, hmem⟩

end Node

end Boards

/-! ## Runs -/

namespace Search

def LoopStep.loop : LoopStep → MoveLoop
  | next ls | cut ls | abort ls => ls

/-- What a run of each task leaves as it is. -/
def Frames : Task → Result → Prop
  | .quiesce node _ _ _, .ret n _ | .quiesceBody node _ _ _, .ret n _
  | .search node _ _ _ _, .ret n _ | .searchBody node _ _ _ _, .ret n _
  | .moves node _ _ _ _, .ret n _ | .root node _ _ _, .ret n _ | .deepen node _ _ _ _, .node n
  | .scout _ node _, .ret n _ => node.Frame n
  | .loop _ ls, .looped ls' _ => ls.node.Keeps ls'.node
  | .visit _ ls _, .step st => ls.node.Continues st.loop.node
  | _, _ => True

theorem continues_taint (ls : MoveLoop) (r : Ret) : ls.node.Continues (ls.enter.taint r).node :=
  ⟨⟨rfl, rfl, rfl, rfl⟩, rfl, rfl, rfl⟩

theorem continues_note (k : LoopKind) (score : Int) (node : Node) :
    node.Continues (k.note score node) := by
  cases k with
  | root => exact Node.continues_setCurrentScore node score
  | quiesce | search => exact .refl node

theorem continues_take (ls : MoveLoop) (mov : Move) (child : Node) (r : Ret) :
    ls.node.Continues (ls.take mov child r).node := by
  show ls.node.Continues (if r.score > ls.bestscore then ls.node.setBest mov child else ls.node)
  split
  · exact Node.continues_setBest _ mov child
  · exact .refl _

/-- The node after a visit whose child has been searched. -/
theorem continues_visit (k : LoopKind) (ls : MoveLoop) (mov : Move) (child : Node) (r : Ret) :
    ls.node.Continues (({ ls.enter.taint r with
      node := k.note r.score (ls.enter.taint r).node } : MoveLoop).take mov child r).node :=
  ((continues_taint ls r).trans (continues_note k r.score _)).trans
    (continues_take { ls.enter.taint r with node := k.note r.score (ls.enter.taint r).node } mov child r)

theorem frame_call {k : LoopKind} {child n : Node} {a b : Int} {r : Ret}
    (h : Frames (k.call child a b) (.ret n r)) : child.Frame n := by
  cases k with
  | quiesce => exact h
  | search => exact h
  | root => exact h

/-- The node at the end of a loop that started from `node`, apart from its type. -/
theorem frame_started {node m n n' : Node} [Build] {beyond : BitVec 32} {history : PerColor HistoryTable}
    (hstart : m.start beyond history = some n) (hk : n.Keeps n') (hf : node.Frame m) : node.Frame n' :=
  (hf.trans (Node.frame_start hstart)).trans hk.toFrame

section Runs

variable [Build] {env : SearchEnv} {hashed : Bool}

theorem frame_probes {node n : Node} {depth alpha beta : Int} {hit : Option Int}
    (h : Probes env hashed node depth alpha beta (n, hit)) :
    node.Frame n ∧ n.movelist = node.movelist ∧ n.tainted = node.tainted ∧
      n.bestLine = node.bestLine := by
  obtain ⟨t, _, h⟩ := h
  obtain ⟨hashmv, pvline, hn⟩ := probeHashtable_node env.failsoft t node depth alpha beta
  rw [h] at hn
  have hn : n = { node with hashmv := hashmv, pvline := pvline } := hn
  rw [hn]
  exact ⟨⟨rfl, rfl, rfl, rfl⟩, rfl, rfl, rfl⟩

theorem Runs.frames {task : Task} {s : Bool} {es : List Event} {s' : Bool} {res : Result}
    (h : Runs env hashed task s es s' res) : Frames task res := by
  induction h with
  | quiesce _ ih | search _ ih | searchLeaf _ _ ih | late _ ih => exact ih
  | quiesceHit hp | quiesceCut hp | quiesceLeaf hp | searchHit _ hp | searchNull _ hp =>
    exact (frame_probes hp).1
  | quiesceAbort hp _ _ hstart _ ih | quiesceDone hp _ _ hstart _ ih =>
    exact (frame_probes hp).1.trans (frame_started hstart ih ⟨rfl, rfl, rfl, rfl⟩)
  | searchDraw | deepenSkip => exact .refl _
  | searchMain _ hp _ _ _ _ ih₂ ih₃ => exact ((frame_probes hp).1.trans ih₂).trans ih₃
  | deepenDone _ _ ih => exact ih.trans ⟨rfl, rfl, rfl, rfl⟩
  | movesAbort hstart _ ih => exact frame_started hstart ih ⟨rfl, rfl, rfl, rfl⟩
  | @movesDone node ply depth alpha beta s history n es s' ls n' hstart _ hn ih =>
    have hls : node.Frame ls.node := frame_started hstart ih ⟨rfl, rfl, rfl, rfl⟩
    rcases hn with rfl | rfl
    · exact hls
    · exact hls.trans (Node.frame_addKiller _ _)
  | nullSkip | nullDone => trivial
  | rootAbort hstart _ ih | rootDone hstart _ _ ih => exact frame_started hstart ih (.refl _)
  | loopEnd => exact Node.keeps_pick _
  | loopNext _ _ _ ih₁ ih₂ => exact ((Node.keeps_pick _).trans ih₁.keeps).trans ih₂
  | loopCut _ _ ih | loopAbort _ _ ih => exact (Node.keeps_pick _).trans ih.keeps
  | illegal | skipped => exact .refl _
  | visitAbort => exact continues_taint _ _
  | visitCut _ _ _ _ _ hls | visitNext _ _ _ _ _ hls =>
    rw [hls]
    exact continues_visit _ _ _ _ _
  | scoutFull _ ih | scoutNull _ _ ih => exact frame_call ih
  | scoutAgain _ _ _ _ ih₁ ih₂ => exact (frame_call ih₁).trans (frame_call ih₂)

/-- What a run keeps sound. -/
def KeepsSound : Task → Result → Prop
  | .quiesce node _ _ _, .ret n _ | .quiesceBody node _ _ _, .ret n _
  | .search node _ _ _ _, .ret n _ | .searchBody node _ _ _ _, .ret n _
  | .moves node _ _ _ _, .ret n _ | .root node _ _ _, .ret n _ | .deepen node _ _ _ _, .node n
  | .scout _ node _, .ret n _ => node.Sound → n.Sound
  | _, _ => True

theorem keepsSound_call {k : LoopKind} {child n : Node} {a b : Int} {r : Ret}
    (h : KeepsSound (k.call child a b) (.ret n r)) (hc : child.Sound) : n.Sound := by
  cases k with
  | quiesce => exact h hc
  | search => exact h hc
  | root => exact h hc

theorem sound_probes {node n : Node} {depth alpha beta : Int} {hit : Option Int}
    (h : Probes env hashed node depth alpha beta (n, hit)) (hs : node.Sound) : n.Sound :=
  hs.congr (frame_probes h).1 (frame_probes h).2.1

/-- **A run keeps its node sound.** -/
theorem Runs.sound {task : Task} {s : Bool} {es : List Event} {s' : Bool} {res : Result}
    (h : Runs env hashed task s es s' res) : KeepsSound task res := by
  induction h with
  | quiesce _ ih | search _ ih | searchLeaf _ _ ih => exact ih
  | quiesceHit hp | quiesceCut hp | quiesceLeaf hp | searchHit _ hp | searchNull _ hp =>
    exact sound_probes hp
  | quiesceAbort hp _ _ hstart hloop | quiesceDone hp _ _ hstart hloop =>
    exact fun hs => (sound_probes hp hs).started hstart hloop.frames ⟨rfl, rfl, rfl, rfl⟩ rfl
  | searchDraw | deepenSkip => exact id
  | searchMain _ hp _ _ _ _ ih₂ ih₃ => exact fun hs => ih₃ (ih₂ (sound_probes hp hs))
  | deepenDone _ _ ih => exact fun hs => (ih hs).congr ⟨rfl, rfl, rfl, rfl⟩ rfl
  | movesAbort hstart hloop =>
    exact fun hs => hs.started hstart hloop.frames ⟨rfl, rfl, rfl, rfl⟩ rfl
  | rootAbort hstart hloop | rootDone hstart hloop =>
    exact fun hs => hs.started hstart hloop.frames (.refl _) rfl
  | movesDone hstart hloop hn =>
    intro hs
    have hls := hs.started hstart hloop.frames ⟨rfl, rfl, rfl, rfl⟩ rfl
    rcases hn with rfl | rfl
    · exact hls
    · exact hls.addKiller _
  | scoutFull _ ih | scoutNull _ _ ih => exact keepsSound_call ih
  | scoutAgain _ _ _ _ ih₁ ih₂ => exact fun hs => keepsSound_call ih₂ (keepsSound_call ih₁ hs)
  | _ => trivial

end Runs

end Search

end HoiChess
