import HoiChess.Common.Mated
import HoiChess.Common.MaterialDraw
import HoiChess.Common.Mateless

/-!
# What the game and the search call a draw

`check_result` looks for a mate first and asks whether the half-move clock is 100;
`is_draw` comes before everything else in `search` and asks whether it is 100 or more.  So they
agree exactly as long as the clock is in time: not beyond 100 in general, and below 100 where
there is a mate (`drawn_alike_iff`).
-/

namespace HoiChess

open Chess Rules Exec

/-! ## The node of a mate -/

namespace Node

/-- The node is in check, and no move that it holds or may generate is legal. -/
structure Hopeless [Build] (node : Node) : Prop where
  incheck : node.incheck = true
  escapes : node.board.NoEscape
  moves : ∀ mov ∈ node.movelist.moves, node.board.isLegalMove mov = false

section Hopeless

variable [Build] {node node' : Node}

theorem Keeps.hopeless (hk : Keeps node node') (h : node.Hopeless) : node'.Hopeless where
  incheck := by
    rw [hk.incheck]
    exact h.incheck
  escapes := by
    rw [hk.board]
    exact h.escapes
  moves mov hmov := by
    rw [hk.board]
    exact h.moves mov (hk.moves.mem_iff.mp hmov)

/-- Other fields do not matter. -/
theorem Hopeless.congr (h : node.Hopeless) (hf : Frame node node')
    (hm : node'.movelist = node.movelist) : node'.Hopeless := by
  have hk : Keeps { node with type := node'.type } node' :=
    ⟨⟨hf.1, hf.2, hf.3, hf.4⟩, rfl, by rw [hm]⟩
  exact hk.hopeless ⟨h.incheck, h.escapes, h.moves⟩

/-- `first()` finds no legal move in a full-width search. -/
theorem Hopeless.start (h : node.Hopeless) {beyond : BitVec 32} {history : PerColor HistoryTable} {n : Node}
    (hstart : ({ node with type := .fullwidth, historytable := some node.board.side } : Node).start
      beyond history = some n) : n.Hopeless := by
  have hc := continues_start hstart
  refine hc.keeps.hopeless ⟨h.incheck, h.escapes, fun mov hmov => ?_⟩
  simp only [startList, h.incheck, if_true] at hmov
  split at hmov
  · exact h.moves mov hmov
  · exact h.escapes mov hmov

theorem Hopeless.addKiller (h : node.Hopeless) (mov : Move) : (node.addKiller mov).Hopeless := by
  unfold Node.addKiller
  split
  · exact h.congr ⟨rfl, rfl, rfl, rfl⟩ rfl
  · split
    · exact h.congr ⟨rfl, rfl, rfl, rfl⟩ rfl
    · exact h

/-- What is picked is not legal. -/
theorem Hopeless.pick (h : node.Hopeless) (hmov : node.pick.2 ≠ .noMove) :
    node.pick.1.board.isLegalMove node.pick.2 = false := by
  have hmem : node.pick.2 ∈ node.todo := (todo_pick hmov).mem_iff.mpr List.mem_cons_self
  rw [todo_eq_drop] at hmem
  rw [(keeps_pick node).board]
  exact h.moves _ (List.mem_of_mem_drop hmem)

end Hopeless

end Node

namespace Search

section Mate

variable [Build] {env : SearchEnv}

/-- The score of a mate in the window. -/
def matedScore (failsoft : Bool) (ply : Nat) (alpha beta : Int) : Int :=
  if failsoft then mateScore ply else boundScore (mateScore ply) alpha beta

/-- What a full-width search makes of a hopeless node. -/
def SeesMate (env : SearchEnv) : Task → Result → Prop
  | .search node ply depth alpha beta, .ret n r | .searchBody node ply depth alpha beta, .ret n r =>
    node.Hopeless → 0 < depth → node.isDraw = none →
      n.Hopeless ∧ r = ⟨matedScore env.failsoft ply alpha beta, false⟩
  | .null node _ _ _, .cut score => node.Hopeless → score = none
  | .deepen node _ _ _ _, .node n => node.Hopeless → node.isDraw = none → n.Hopeless
  | .moves node ply _ alpha beta, .ret n r =>
    node.Hopeless → n.Hopeless ∧ r = ⟨matedScore env.failsoft ply alpha beta, false⟩
  | .loop _ ls, res =>
    ls.node.Hopeless → ∃ n : Node, n.Hopeless ∧ res = .looped { ls with node := n } false
  | .visit _ ls mov, res => ls.node.board.isLegalMove mov = false → res = .step (.next ls)
  | _, _ => True

theorem probes_none {node n : Node} {depth alpha beta : Int} {hit : Option Int}
    (h : Probes env false node depth alpha beta (n, hit)) : n = node ∧ hit = none := by
  obtain ⟨t, ht, h⟩ := h
  obtain rfl : t = none := ht.resolve_left Bool.false_ne_true
  cases h
  exact ⟨rfl, rfl⟩

/-- **A mate is seen where no draw comes first.** -/
theorem Runs.seesMate {task : Task} {s : Bool} {es : List Event} {s' : Bool} {res : Result}
    (h : Runs env false task s es s' res) : SeesMate env task res := by
  induction h with
  | search _ ih => exact ih
  | searchLeaf hdepth => exact fun _ hpos => absurd hpos (not_lt.mpr hdepth)
  | searchDraw _ hdraw =>
    intro _ _ hnone
    rw [hdraw] at hnone
    cases hnone
  | searchHit _ hp => exact absurd (probes_none hp).2 nofun
  | searchNull _ hp _ ih =>
    intro hm _ _
    obtain ⟨rfl, _⟩ := probes_none hp
    cases ih hm
  | searchMain _ hp _ _ _ _ ih₂ ih₃ =>
    intro hm _ hnone
    obtain ⟨rfl, _⟩ := probes_none hp
    exact ih₃ (ih₂ hm hnone)
  | nullSkip => exact fun _ => rfl
  | nullDone hcheck =>
    intro hm
    rw [hm.incheck] at hcheck
    cases hcheck
  | deepenSkip => exact fun hm _ => hm
  | deepenDone hdepth _ ih =>
    intro hm hnone
    exact (ih hm (by omega) hnone).1.congr ⟨rfl, rfl, rfl, rfl⟩ rfl
  | movesAbort hstart _ ih =>
    intro hm
    obtain ⟨n, _, hres⟩ := ih (hm.start hstart)
    cases hres
  | @movesDone node ply depth alpha beta s history n es s' ls n' hstart _ hn ih =>
    intro hm
    obtain ⟨n₁, hn₁, hres⟩ := ih (hm.start hstart)
    cases hres
    refine ⟨?_, ?_⟩
    · rcases hn with rfl | rfl
      · exact hn₁
      · exact hn₁.addKiller _
    · simp [searchScore, matedScore, mateScore, hn₁.incheck]
  | loopEnd => exact fun hm => ⟨_, (Node.keeps_pick _).hopeless hm, rfl⟩
  | loopNext hmov _ _ ih₁ ih₂ =>
    intro hm
    cases ih₁ (hm.pick hmov)
    exact ih₂ ((Node.keeps_pick _).hopeless hm)
  | loopCut hmov _ ih | loopAbort hmov _ ih =>
    intro hm
    cases ih (hm.pick hmov)
  | illegal => exact fun _ => rfl
  | skipped hl | visitAbort hl | visitCut hl | visitNext hl =>
    intro hno
    exact absurd (hl.symm.trans hno) nofun
  | late _ ih => exact ih
  | _ => trivial

omit [Build] in
theorem mateScore_mem {ply : Nat} (hply : ply < maxply) :
    -infty ≤ mateScore ply ∧ mateScore ply < -mate := by
  refine ⟨?_, mateScore_lt hply⟩
  show -100000 ≤ -100000 + (ply : Int)
  omega

omit [Build] in
/-- In the full window the score of a mate is no draw score. -/
theorem matedScore_ne_draw {ply : Nat} (hply : ply < maxply) (failsoft : Bool) :
    matedScore failsoft ply (-infty) infty ≠ draw := by
  obtain ⟨hlow, hlt⟩ := mateScore_mem hply
  have hinfty : infty = 100000 := rfl
  have hmate : mate = 90000 := rfl
  have hdraw : draw = 0 := rfl
  unfold matedScore boundScore
  split_ifs <;> omega

/-- **The search of a mated node** below the root, without a hash table. -/
theorem search_mated (env : SearchEnv) {node : Node} (hm : node.Hopeless) (hdraw : node.isDraw = none)
    {st : SearchState} (ht : st.hashtable = none) {ply : Nat} {depth : Int} (hdepth : 0 < depth)
    (hfits : (Call.search node ply depth).Fits st) {fuel : Nat}
    (hfuel : depth.toNat + maxply + 2 ≤ fuel) (alpha beta : Int) :
    ∃ n st', search env fuel node ply depth alpha beta st =
      .done (n, ⟨matedScore env.failsoft ply alpha beta, false⟩) st' := by
  have hreturns : (Call.search node ply depth).Returns env fuel alpha beta st :=
    (Call.search node ply depth).returns hfuel st
  obtain ⟨⟨n, r⟩, st', hrun⟩ := hreturns.2 hfits
  obtain ⟨_, es, _, hruns⟩ := search_refines fuel node ply depth alpha beta st (n, r) st' hrun
    (Or.inr ht)
  obtain ⟨_, rfl⟩ := hruns.seesMate hm hdepth hdraw
  exact ⟨n, st', hrun⟩

/-- The draw test comes before all that. -/
theorem search_isDraw (env : SearchEnv) {node : Node} (hdraw : node.isDraw = some draw)
    (st : SearchState) (ply : Nat) {depth : Int} (hdepth : 0 < depth) (fuel : Nat) :
    ∃ st', search env (fuel + 1) node ply depth (-infty) infty st =
      .done (node, ⟨draw, false⟩) st' := by
  have hbody : searchBody env (quiescenceSearch env fuel) (search env fuel) node ply depth (-infty)
      infty st = .done (node, ⟨draw, false⟩) st := by
    unfold searchBody
    rw [if_neg (not_le.mpr hdepth), hdraw]
    cases env.failsoft <;> rfl
  refine ⟨{ st with trace := st.trace ++
    [.returned .search (-infty) infty ⟨draw, false⟩ st.stop] }, ?_⟩
  unfold search returning
  rw [bind_of_done hbody]
  rfl

end Mate

end Search

/-! ## The agreement -/

/-- A node as `make_move` leaves it. -/
structure Node.Fresh (node : Node) : Prop where
  incheck : node.incheck = node.board.inCheck
  movelist : node.movelist = .empty
  ancestors : node.ancestors ≠ []

section Agreement

variable [Build]

/-- Where the 50-move clause of `is_draw` applies, that of `check_result` decides the game, unless
the game ends with a mate or a stalemate. -/
def Chess.Board.Rule50Agrees (b : Board) : Prop :=
  ∀ g : Game, g.currentBoard = b → 100 ≤ b.movecnt50 → b.isMate = false → b.isStalemate = false →
    g.checkResult.result = .rule50

/-- A mate is never scored as a draw in the full window without a hash table. -/
def Node.MateCounts (node : Node) : Prop :=
  node.board.isMate = true → ∀ (env : SearchEnv) (st : SearchState) (ply : Nat) (depth : Int)
    (fuel : Nat), st.hashtable = none → 1 ≤ ply → 1 ≤ depth →
      (Search.Call.search node ply depth).Fits st → depth.toNat + maxply + 2 ≤ fuel →
        ∃ n r st', Search.search env fuel node ply depth (-infty) infty st = .done (n, r) st' ∧
          r.score ≠ draw

/-- The half-move clock is in time: below 100 at a mate, and at most 100 where the game goes on.
A mate must not count as a draw for other reasons either. -/
def Node.InTime (node : Node) : Prop :=
  (node.board.isMate = true → node.board.movecnt50 < 100 ∧ node.board.isMaterialDraw = false ∧
    node.isRepetition = false) ∧
  (node.board.isMate = false → node.board.isStalemate = false → node.board.movecnt50 ≤ 100)

/-- `generate_escapes` lists no legal move at a mate. -/
def Chess.Board.EscapesCover (b : Board) : Prop := b.isMate = true → b.NoEscape

variable {node : Node} {b : Board}

omit [Build] in
theorem isDraw_eq_none : node.isDraw = none ↔
    node.board.movecnt50 < 100 ∧ node.board.isMaterialDraw = false ∧ node.isRepetition = false := by
  unfold Node.isDraw
  split_ifs with h₁ h₂ h₃ <;> simp_all

theorem movecnt50_of_rule50 {g : Game} (h : g.checkResult.result = .rule50) :
    g.currentBoard.movecnt50 = 100 := by
  by_contra hne
  unfold Game.checkResult at h
  simp only [hne, if_false] at h
  split_ifs at h <;> cases h

theorem rule50Agrees_iff (b : Board) : b.Rule50Agrees ↔
    (b.isMate = false → b.isStalemate = false → b.movecnt50 ≤ 100) := by
  constructor
  · intro h hmate hstale
    by_contra hlate
    have heq : b.movecnt50 = 100 := movecnt50_of_rule50
      (h (Game.construct b .untimed .untimed) rfl (by omega) hmate hstale)
    omega
  · rintro h g rfl hlate hmate hstale
    have hle := h hmate hstale
    have heq : g.currentBoard.movecnt50 = 100 := by omega
    simp [Game.checkResult, hmate, hstale, heq, Game.setResult]

/-- At a board that stands for a position, a mate has no escapes, and is no material draw. -/
theorem Chess.Board.Sound.escapesCover (h : b.Sound) : b.EscapesCover := by
  intro hmate
  exact (h.isMate_iff (Board.isMate_eq_true.mp hmate).1).mp hmate

theorem Chess.Board.Sound.isMaterialDraw_of_isMate (h : b.Sound) (hmate : b.isMate = true) :
    b.isMaterialDraw = false := by
  by_contra hdraw
  have hf : Feeble b.abs.man :=
    Board.feeble_of_isMaterialDraw h.sim.consistent (Bool.not_eq_false _ ▸ hdraw)
  obtain ⟨hcheck, hno⟩ := Board.isMate_eq_true.mp hmate
  obtain ⟨ply, hl⟩ := hf.exists_legal h.sane (h.inCheck_iff.mp hcheck)
  exact hno _ ((h.sim.mem_legalMoves h.sane h.materialOk _).mpr ⟨ply, rfl, hl⟩)

/-- A mate that is not in time is scored as a draw. -/
theorem Node.MateCounts.isDraw (h : node.MateCounts) (hf : node.Fresh)
    (hmate : node.board.isMate = true) : node.isDraw = none := by
  by_contra hne
  obtain ⟨score, hscore⟩ := Option.ne_none_iff_exists'.mp hne
  obtain rfl := Search.isDraw_eq_draw hscore
  have hfits : (Search.Call.search node 1 1).Fits Search.idle := ⟨by decide, by decide, hf.ancestors⟩
  obtain ⟨n, r, st', hrun, hr⟩ := h hmate (Search.stillEnv false 0) Search.idle 1 1 2000 rfl le_rfl
    le_rfl hfits (by decide)
  obtain ⟨st'', hrun'⟩ := Search.search_isDraw (Search.stillEnv false 0) hscore Search.idle 1
    zero_lt_one 1999
  rw [hrun'] at hrun
  cases hrun
  exact hr rfl

theorem Node.InTime.mateCounts (h : node.InTime) (hf : node.Fresh) (hc : node.board.EscapesCover) :
    node.MateCounts := by
  intro hmate env st ply depth fuel ht _ hdepth hfits hfuel
  have hm : node.Hopeless := by
    refine ⟨?_, hc hmate, ?_⟩
    · rw [hf.incheck]
      exact (Board.isMate_eq_true.mp hmate).1
    · rw [hf.movelist]
      exact nofun
  obtain ⟨n, st', hrun⟩ := Search.search_mated env hm (isDraw_eq_none.mpr (h.1 hmate)) ht hdepth hfits
    hfuel (-infty) infty
  have hply : ply < maxply := lt_of_le_of_lt (Nat.le_add_right _ _) hfits.2.1
  exact ⟨n, _, st', hrun, Search.matedScore_ne_draw hply _⟩

/-- **The game and the search agree on what is drawn exactly if the clock is in time.**  In any
case it has to be; it is enough where `generate_escapes` lists no more legal moves at a mate than
`generate_moves`, as at every board that stands for a position of the rules. -/
theorem drawn_alike_iff (hf : node.Fresh) :
    (node.board.Rule50Agrees ∧ node.MateCounts → node.InTime) ∧
    (node.board.EscapesCover → (node.board.Rule50Agrees ∧ node.MateCounts ↔ node.InTime)) ∧
    (node.board.Sound → node.board.EscapesCover ∧
      (node.board.isMate = true → node.board.isMaterialDraw = false)) := by
  have hneeds : node.board.Rule50Agrees ∧ node.MateCounts → node.InTime := by
    rintro ⟨hrule, hmate⟩
    exact ⟨fun h => isDraw_eq_none.mp (hmate.isDraw hf h), (rule50Agrees_iff _).mp hrule⟩
  refine ⟨hneeds, fun hc => ⟨hneeds, fun h => ?_⟩, fun hs =>
    ⟨hs.escapesCover, hs.isMaterialDraw_of_isMate⟩⟩
  exact ⟨(rule50Agrees_iff _).mpr h.2, h.mateCounts hf hc⟩

end Agreement

/-! ## A mate with the hundredth half-move -/

/-- White mates on the back rank; `clock` is the half-move clock before. -/
def backRankFen (clock : String) : String := "6k1/5ppp/8/8/8/8/8/R5K1 w - - " ++ clock ++ " 80"

def backRankMove : Move := .normal 0 56 (some .rook)

/-- The node that `make_move` sets up for the mate. -/
def backRankNode [Build] (b : Board) : Node := (Node.ofBoard b).makeMove backRankMove none

theorem fresh_backRankNode [Build] (b : Board) : (backRankNode b).Fresh :=
  ⟨rfl, rfl, List.cons_ne_nil _ _⟩

/-- With the ninety-ninth half-move the mate counts. -/
theorem drawn_alike_in_time : ∃ b, @Board.parseFen sampleBuild (backRankFen "98") = .accepted b ∧
    @Board.isMate sampleBuild (@backRankNode sampleBuild b).board = true ∧
      @Node.MateCounts sampleBuild (@backRankNode sampleBuild b) := by
  let _ := sampleBuild
  have hrun : (Board.parseFen (backRankFen "98")).holds (fun b =>
      (backRankNode b).board.isMate && decide (backRankNode b).board.NoEscape &&
        decide ((backRankNode b).isDraw = none)) = true := by
    decide +kernel
  obtain ⟨b, hb, hrun⟩ := FenResult.holds_eq_true.mp hrun
  simp only [Bool.and_eq_true, decide_eq_true_eq] at hrun
  obtain ⟨⟨hmate, hno⟩, hdraw⟩ := hrun
  have hiff := (drawn_alike_iff (fresh_backRankNode b)).2.1 fun _ => hno
  refine ⟨b, hb, hmate, (hiff.mpr ⟨fun _ => isDraw_eq_none.mp hdraw, fun h => ?_⟩).2⟩
  rw [hmate] at h
  cases h

/-- **With the hundredth half-move White mates, and the search calls it a draw.** -/
theorem mate_scored_as_draw : ∃ b, @Board.parseFen sampleBuild (backRankFen "99") = .accepted b ∧
    b.side = .white ∧
    (let node := @backRankNode sampleBuild b
     (@Game.checkResult (Game.construct node.board .untimed .untimed) sampleBuild).result = .whitemates ∧
      ∃ st', @Search.search sampleBuild (Search.stillEnv false 0) 2000 node 1 1 (-infty) infty
        Search.idle = .done (node, ⟨draw, false⟩) st') := by
  let _ := sampleBuild
  have hrun : (Board.parseFen (backRankFen "99")).holds (fun b =>
      decide (b.side = .white) && (backRankNode b).board.isMate &&
        decide ((backRankNode b).board.side = .black) &&
          decide ((backRankNode b).isDraw = some draw)) = true := by
    decide +kernel
  obtain ⟨b, hb, hrun⟩ := FenResult.holds_eq_true.mp hrun
  simp only [Bool.and_eq_true, decide_eq_true_eq] at hrun
  obtain ⟨⟨⟨hwhite, hmate⟩, hside⟩, hdraw⟩ := hrun
  refine ⟨b, hb, hwhite, ?_, Search.search_isDraw _ hdraw _ 1 zero_lt_one 1999⟩
  simp [Game.checkResult, Game.construct, Game.setResult, hmate, hside]

end HoiChess
