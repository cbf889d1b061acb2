import HoiChess.Lib.ScanOrder
import HoiChess.Chess.Fen
import HoiChess.Chess.PawnLoop
import HoiChess.Common.Evaluator

/-!
# Pawns in any order

`score_pawns` gives a bonus to a passed pawn if a passed pawn connected with it was met before.
Two connected passed pawns get one bonus in any order.  Three in a chain get one or two: the score
is the same for every order exactly if no passed pawn is connected with two others
(`scorePawns_order_iff`).  The passed pawns found are always the same.
-/

namespace HoiChess

open Chess WordSet

namespace Chess.Board

variable (b : Board) (side : Color)

/-- A passed pawn of `side` stands on the square. -/
def hasPassed (sq : Square) : Bool := mem (b.pos side .pawn) sq && b.isPassed side sq

/-- No passed pawn is connected with two others. -/
def InPairs : Prop := ∀ s t u, b.hasPassed side s = true → b.hasPassed side t = true →
  b.hasPassed side u = true → mem (connectedPawnMask s) t = true →
    mem (connectedPawnMask s) u = true → t = u

/-- Two passed pawns of which the one that is met last gets the bonus. -/
def linked (s t : Square) : Bool :=
  b.hasPassed side s && (b.hasPassed side t && mem (connectedPawnMask s) t)

/-- Connected pawns stand on neighbouring files and connection is mutual. -/
theorem mem_connectedPawnMask : ∀ s t : Square, mem (connectedPawnMask s) t = true →
    mem (connectedPawnMask t) s = true ∧ (fil s = fil t + 1 ∨ fil t = fil s + 1) := by
  decide +kernel

theorem ne_of_connected {s t : Square} (h : mem (connectedPawnMask s) t = true) : s ≠ t := by
  rintro rfl
  rw [not_mem_connectedPawnMask] at h
  cases h

variable {b side}

theorem linked_symm (s t : Square) (h : b.linked side s t = true) : b.linked side t s = true := by
  simp only [linked, Bool.and_eq_true] at h ⊢
  exact ⟨h.2.1, h.1, (mem_connectedPawnMask s t h.2.2).1⟩

/-- Two pawns connected with a third one are not connected with each other. -/
theorem linked_open {s t u : Square} (ht : b.linked side s t = true)
    (hu : b.linked side s u = true) : b.linked side t u = false := by
  by_contra htu
  simp only [linked, Bool.and_eq_true, Bool.not_eq_false] at ht hu htu
  have h1 := (mem_connectedPawnMask s t ht.2.2).2
  have h2 := (mem_connectedPawnMask s u hu.2.2).2
  have h3 := (mem_connectedPawnMask t u htu.2.2).2
  omega

/-- The bonus counts the followers. -/
theorem countP_joins {pre l : List Square} (hn : (pre ++ l).Nodup)
    (hpawns : ∀ t ∈ pre ++ l, mem (b.pos side .pawn) t = true) :
    l.countP (b.joins side (pre ++ l)) = followers (b.linked side) pre l := by
  induction l generalizing pre with
  | nil => rfl
  | cons sq l ih =>
    have happ : pre ++ [sq] ++ l = pre ++ sq :: l := by simp
    have hrest : l.countP (b.joins side (pre ++ [sq] ++ l)) =
        followers (b.linked side) (pre ++ [sq]) l := ih (by rwa [happ]) (by rwa [happ])
    rw [happ] at hrest
    have hsq := hpawns sq (by simp)
    have hjoins : b.joins side (pre ++ sq :: l) sq = pre.any (b.linked side sq) := by
      unfold joins
      rw [takeWhile_before hn, Bool.eq_iff_iff, Bool.and_eq_true, List.any_eq_true,
        List.any_eq_true]
      simp only [linked, hasPassed, hsq, Bool.true_and, Bool.and_eq_true]
      constructor
      · rintro ⟨hp, t, ht, h⟩
        exact ⟨t, ht, hp, ⟨hpawns t (by simp [ht]), h.1⟩, h.2⟩
      · rintro ⟨t, ht, hp, h⟩
        exact ⟨hp, t, ht, h.1.2, h.2⟩
    have hpre : followers (b.linked side) (pre ++ [sq]) l = followers (b.linked side) (sq :: pre) l :=
      followers_congr (fun t => by simp [or_comm]) l
    rw [List.countP_cons, hrest, hjoins, followers, hpre, Nat.add_comm]

theorem connections_eq [Build] :
    b.connections side = followers (b.linked side) [] (squares (b.pos side .pawn)) :=
  @countP_joins b side [] _ (squares_nodup _) fun t ht => (mem_squares _ t).mp ht

/-! ## Two builds -/

section Builds

variable (k k' : Build)

theorem scoreOver_build (bb : Bitboard) (f : Square → Int) :
    @scoreOver k bb f = @scoreOver k' bb f := by
  have hperm : (@squares k bb).Perm (@squares k' bb) := drain_perm _ _ _
  exact (hperm.map f).sum_eq

/-- The scores of two builds differ by the bonus. -/
theorem scorePawnsLoop_build (phase : Phase) :
    (@scorePawnsLoop k b phase side).1 = (@scorePawnsLoop k' b phase side).1 ↔
      @connections b k side = @connections b k' side := by
  rw [@scorePawnsLoop_fst b side k, @scorePawnsLoop_fst b side k', scoreOver_build k k']
  omega

theorem passed_build (phase : Phase) :
    (@scorePawnsLoop k b phase side).2 = (@scorePawnsLoop k' b phase side).2 := by
  refine WordSet.ext fun t => ?_
  rw [@mem_scorePawnsLoop b side k, @mem_scorePawnsLoop b side k']

end Builds

/-! ## Pairs and chains -/

/-- The squares of `first`, then all others. -/
def firstSquares (first : List Square) : List Square :=
  first ++ (List.finRange 64).filter (fun s => s ∉ first)

theorem mem_firstSquares (first : List Square) (s : Square) : s ∈ firstSquares first := by
  by_cases hs : s ∈ first <;> simp [firstSquares, hs]

/-- A build that looks for the squares of `first` before all others. -/
@[reducible] def scanFirst (k : Build) (first : List Square) : Build :=
  { k with firstbit := .ofOrder (firstSquares first) (mem_firstSquares first) }

theorem squares_scanFirst (k : Build) {first : List Square} (hn : first.Nodup) {bb : Bitboard}
    (hbb : ∀ s ∈ first, mem bb s = true) :
    @squares (scanFirst k first) bb =
      first ++ ((List.finRange 64).filter (fun s => s ∉ first)).filter (mem bb) := by
  have hnodup : (firstSquares first).Nodup := by
    refine List.nodup_append.mpr ⟨hn, (List.nodup_finRange 64).filter _, ?_⟩
    rintro s hs t ht rfl
    simp [hs] at ht
  have hdrain : @squares (scanFirst k first) bb = (firstSquares first).filter (mem bb) :=
    drain_ofOrder (mem_firstSquares first) hnodup bb
  rw [hdrain, firstSquares, List.filter_append, List.filter_eq_self.mpr hbb]

theorem connections_of_inPairs (hpairs : b.InPairs side) (k k' : Build) :
    @connections b k side = @connections b k' side := by
  have hone : ∀ s t u, b.linked side s t = true → b.linked side s u = true → t = u := by
    intro s t u ht hu
    simp only [linked, Bool.and_eq_true] at ht hu
    exact hpairs s t u ht.1 ht.2.1 hu.2.1 ht.2.2 hu.2.2
  rw [@connections_eq b side k, @connections_eq b side k']
  exact followers_perm linked_symm hone (drain_perm _ _ _) (drain_nodup _ _)

/-- With three pawns in a chain the middle one counts if it is met last, the others if it is met
first. -/
theorem inPairs_of_connections
    (h : ∀ k k' : Build, @connections b k side = @connections b k' side) : b.InPairs side := by
  intro s t u hs ht hu hst hsu
  by_contra htu
  have hlt : b.linked side s t = true := by simp [linked, hs, ht, hst]
  have hlu : b.linked side s u = true := by simp [linked, hs, hu, hsu]
  have hne : s ≠ t ∧ s ≠ u := ⟨ne_of_connected hst, ne_of_connected hsu⟩
  have hpawn : ∀ r, r = s ∨ r = t ∨ r = u → mem (b.pos side .pawn) r = true := by
    simp only [hasPassed, Bool.and_eq_true] at hs ht hu
    rintro r (rfl | rfl | rfl)
    · exact hs.1
    · exact ht.1
    · exact hu.1
  have hmid : @squares (scanFirst sampleBuild [s, t, u]) (b.pos side .pawn) = _ :=
    squares_scanFirst sampleBuild (by simp [hne, htu]) fun r hr => hpawn r (by simpa using hr)
  have hlast : @squares (scanFirst sampleBuild [t, u, s]) (b.pos side .pawn) = _ :=
    squares_scanFirst sampleBuild (by simp [hne.1.symm, hne.2.symm, htu])
      fun r hr => hpawn r (by simp only [List.mem_cons, List.not_mem_nil] at hr; tauto)
  have hothers : (List.finRange 64).filter (fun r => r ∉ [t, u, s]) =
      (List.finRange 64).filter (fun r => r ∉ [s, t, u]) := by
    refine List.filter_congr fun r _ => ?_
    rw [decide_eq_decide]
    simp only [List.mem_cons, List.not_mem_nil]
    tauto
  have hsame := h (scanFirst sampleBuild [s, t, u]) (scanFirst sampleBuild [t, u, s])
  rw [@connections_eq b side (scanFirst _ [s, t, u]), @connections_eq b side (scanFirst _ [t, u, s]),
    hmid, hlast, hothers] at hsame
  have hmore := followers_differ linked_symm hlt hlu (linked_open hlt hlu)
    (((List.finRange 64).filter (fun r => r ∉ [s, t, u])).filter (mem (b.pos side .pawn)))
  simp only [List.cons_append, List.nil_append] at hsame
  omega

end Chess.Board

namespace Evaluator

open Chess.Board

/-- **When the score of the pawns does not depend on the order of the loop**; the passed pawns
never do. -/
theorem scorePawns_order_iff (e : Evaluator) (b : Board) (phase : Chess.Phase) (side : Color)
    (hmiss : e.pawnhashentry.phase ≠ some phase) :
    (∀ k k' : Build, (@scorePawns k e b phase side).1 = (@scorePawns k' e b phase side).1 ∧
      (@scorePawns k e b phase side).2.passedPawns = (@scorePawns k' e b phase side).2.passedPawns) ↔
      b.InPairs side := by
  have hloop : ∀ k : Build, (@scorePawns k e b phase side).1 = (@scorePawnsLoop k b phase side).1 ∧
      (@scorePawns k e b phase side).2.passedPawns =
        e.passedPawns.set side (@scorePawnsLoop k b phase side).2 := by
    intro k
    simp only [scorePawns, if_neg hmiss, and_self]
  constructor
  · intro h
    refine inPairs_of_connections fun k k' => (scorePawnsLoop_build k k' phase).mp ?_
    rw [← (hloop k).1, ← (hloop k').1]
    exact (h k k').1
  · intro hpairs k k'
    rw [(hloop k).1, (hloop k').1, (hloop k).2, (hloop k').2, passed_build k k' phase]
    exact ⟨(scorePawnsLoop_build k k' phase).mpr (connections_of_inPairs hpairs k k'), rfl⟩

/-- Two connected passed pawns. -/
theorem scorePawns_pair : ∃ b,
    @Board.parseFen sampleBuild "4k3/8/1P6/P7/8/8/8/4K3 w - - 0 1" = .accepted b ∧
    ∀ k k' : Build, (@scorePawns k create b .endgame .white).1 =
      (@scorePawns k' create b .endgame .white).1 := by
  let _ := sampleBuild
  have hrun : (Board.parseFen "4k3/8/1P6/P7/8/8/8/4K3 w - - 0 1").holds
      (fun b => decide (∀ s, b.hasPassed .white s = true → s = 32 ∨ s = 41)) = true := by
    decide +kernel
  obtain ⟨b, hb, hrun⟩ := FenResult.holds_eq_true.mp hrun
  have hpawns := of_decide_eq_true hrun
  have hpairs : b.InPairs .white := by
    intro s t u hs ht hu hst hsu
    have hne : s ≠ t ∧ s ≠ u := ⟨ne_of_connected hst, ne_of_connected hsu⟩
    rcases hpawns s hs with rfl | rfl <;> rcases hpawns t ht with rfl | rfl <;>
      rcases hpawns u hu with rfl | rfl <;> simp_all
  exact ⟨b, hb, fun k k' => ((scorePawns_order_iff create b .endgame .white
    (by simp [create, PawnHashEntry.invalid])).mpr hpairs k k').1⟩

/-- **Three pawns in a chain**: counted from the low end the middle one is met last, counted from
the high end it is met first. -/
theorem scorePawns_chain : ∃ b,
    @Board.parseFen sampleBuild "4k3/8/1P6/P1P5/8/8/8/4K3 w - - 0 1" = .accepted b ∧
    (@scorePawns { sampleBuild with firstbit := lsb } create b .endgame .white).1 = 215 ∧
    (@scorePawns { sampleBuild with firstbit := msb } create b .endgame .white).1 = 235 := by
  let _ := sampleBuild
  have hrun : (Board.parseFen "4k3/8/1P6/P1P5/8/8/8/4K3 w - - 0 1").holds (fun b =>
      decide ((@scorePawns { sampleBuild with firstbit := lsb } create b .endgame .white).1 = 215 ∧
        (@scorePawns { sampleBuild with firstbit := msb } create b .endgame .white).1 = 235)) =
      true := by
    decide +kernel
  obtain ⟨b, hb, hrun⟩ := FenResult.holds_eq_true.mp hrun
  exact ⟨b, hb, of_decide_eq_true hrun⟩

end Evaluator

end HoiChess
