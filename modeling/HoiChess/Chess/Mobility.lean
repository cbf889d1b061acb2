import HoiChess.Lib.Incremental
import HoiChess.Chess.Sane
import Mathlib.Algebra.BigOperators.Fin
import Mathlib.Algebra.BigOperators.Ring.List
import Mathlib.Algebra.Order.BigOperators.Group.List
import Mathlib.Algebra.Order.BigOperators.Group.Finset

/-!
# How many moves a position can have

A move list has room for 256 moves.  This module shows that a position with
at most the material that eight promotions can produce never has more
pseudo-legal moves than that (`pseudo_length_le`).  The moves of the sliding
pieces are counted line by line: on a line with the sliders in a set `S` the
number of their targets is at most a constant of the line plus a weight for
each member of `S` (`gapSum_le`), and for every piece the weights of its lines
add up to no more than `pieceWeight`.  All weights are in eighths of a move.
-/

namespace HoiChess.Chess.Rules

open Grid Incremental

/-! ## Gaps on one line -/

/-- For each `true`, the number of `false` directly after it. -/
def gapsAfter : List Bool → Nat
  | [] => 0
  | b :: l => (if b then (l.takeWhile (fun x => !x)).length else 0) + gapsAfter l

def gapSum (l : List Bool) : Nat := gapsAfter l + gapsAfter l.reverse

def weightSum (l : List Bool) (ws : List Nat) : Nat :=
  ((l.zip ws).map (fun p => if p.1 then p.2 else 0)).sum

def allBools : Nat → List (List Bool)
  | 0 => [[]]
  | n + 1 => (allBools n).flatMap (fun l => [true :: l, false :: l])

theorem mem_allBools (l : List Bool) : l ∈ allBools l.length := by
  induction l with
  | nil => simp [allBools]
  | cons b l ih =>
    rw [List.length_cons, allBools, List.mem_flatMap]
    exact ⟨l, ih, by cases b <;> simp⟩

/-- The constant and the weights of a rank or file: of an outer one, and of an inner one. -/
def straightProfile (outer : Bool) : Nat × List Nat :=
  if outer then (34, [31, 23, 22, 22, 22, 22, 23, 31]) else (28, [34, 28, 28, 28, 28, 28, 28, 34])

/-- The constant and the weights of a diagonal of a given length. -/
def diagProfile : Nat → Nat × List Nat
  | 2 => (0, [8, 8])
  | 3 => (0, [16, 16, 16])
  | 4 => (0, [24, 24, 24, 24])
  | 5 => (16, [16, 16, 16, 16, 16])
  | 6 => (16, [24, 24, 24, 24, 24, 24])
  | 7 => (32, [24, 16, 16, 16, 16, 16, 24])
  | 8 => (32, [32, 24, 24, 24, 24, 24, 24, 32])
  | _ => (0, [0])

def profiles : List (Nat × List Nat) :=
  [straightProfile true, straightProfile false] ++ (List.range 9).map diagProfile

theorem profiles_sound : ∀ pr ∈ profiles, ∀ l ∈ allBools pr.2.length,
    8 * gapSum l ≤ pr.1 + weightSum l pr.2 := by
  decide +kernel

theorem gapSum_le {pr : Nat × List Nat} (h : pr ∈ profiles) {l : List Bool}
    (hl : l.length = pr.2.length) : 8 * gapSum l ≤ pr.1 + weightSum l pr.2 :=
  profiles_sound pr h l (hl ▸ mem_allBools l)

/-! ## The lines of the board -/

/-- One direction for each of the four kinds of line. -/
def axes : List Dir := [(1, 0), (0, 1), (1, 1), (1, -1)]

def ray (d : Dir) (s : Square) : List Square := walk (fun _ => false) d 7 s

/-- The lines of a kind, each from its first square on. -/
def lines (d : Dir) : List (List Square) :=
  ((List.finRange 64).filter (fun s => (step s (-d)).isNone)).map (fun s => s :: ray d s)

/-- Every square of the line is followed by its ray. -/
def IsRun (d : Dir) : List Square → Prop
  | [] => True
  | s :: l => ray d s = l ∧ IsRun d l

instance (d : Dir) : (l : List Square) → Decidable (IsRun d l)
  | [] => isTrue trivial
  | _ :: l =>
    have := instDecidableIsRun d l
    inferInstanceAs (Decidable (_ ∧ _))

def lineProfile (d : Dir) (line : List Square) : Nat × List Nat :=
  match line with
  | [] => (0, [])
  | s :: _ =>
    if d = (1, 0) then straightProfile (rnk s = 0 || rnk s = 7)
    else if d = (0, 1) then straightProfile (fil s = 0 || fil s = 7)
    else diagProfile line.length

/-- The weight of a square on its line of a kind. -/
def axisWeight (d : Dir) (s : Square) : Nat :=
  let back := (ray (-d) s).reverse
  (lineProfile d (back ++ s :: ray d s)).2.getD back.length 0

theorem lines_sound : ∀ d ∈ axes, ∀ line ∈ lines d, IsRun d line ∧ IsRun (-d) line.reverse ∧
    lineProfile d line ∈ profiles ∧ line.map (axisWeight d) = (lineProfile d line).2 := by
  decide +kernel

theorem lines_flatten : ∀ d ∈ axes, (lines d).flatten.Perm (List.finRange 64) := by
  decide

theorem lines_const :
    (axes.map (fun d => ((lines d).map (fun line => (lineProfile d line).1)).sum)).sum = 792 := by
  decide

/-! ## Counting along the lines -/

/-- A total over the squares, line by line. -/
theorem sum_lines {d : Dir} (hd : d ∈ axes) (g : Square → Nat) :
    ∑ s, g s = ((lines d).map (fun line => (line.map g).sum)).sum := by
  rw [Fin.sum_univ_def, ← ((lines_flatten d hd).map g).sum_eq, List.map_flatten, List.sum_flatten,
    List.map_map]
  rfl

theorem sum_gapsAfter {d : Dir} {line : List Square} (h : IsRun d line) (sl : Square → Bool) :
    (line.map (fun s => if sl s then ((ray d s).takeWhile (fun u => !sl u)).length else 0)).sum =
      gapsAfter (line.map sl) := by
  induction line with
  | nil => rfl
  | cons s line ih =>
    have htake : ((line.map sl).takeWhile (fun x => !x)).length =
        (line.takeWhile (fun u => !sl u)).length := by
      rw [List.takeWhile_map, List.length_map]
      rfl
    rw [List.map_cons, List.sum_cons, ih h.2, List.map_cons, gapsAfter, htake, h.1]

theorem weightSum_map (line : List Square) (sl : Square → Bool) (w : Square → Nat) :
    weightSum (line.map sl) (line.map w) =
      (line.map (fun s => if sl s then w s else 0)).sum := by
  induction line with
  | nil => rfl
  | cons s line ih =>
    simp only [weightSum, List.map_cons, List.zip_cons_cons, List.sum_cons] at ih ⊢
    rw [ih]

/-- The free squares next to `s` in both directions of a line, up to the next slider. -/
def gapsAt (d : Dir) (sl : Square → Bool) (s : Square) : Nat :=
  ((ray d s).takeWhile (fun u => !sl u)).length + ((ray (-d) s).takeWhile (fun u => !sl u)).length

theorem sum_gapsAt_line {d : Dir} (hd : d ∈ axes) {line : List Square} (hl : line ∈ lines d)
    (sl : Square → Bool) :
    8 * (line.map (fun s => if sl s then gapsAt d sl s else 0)).sum ≤
      (lineProfile d line).1 + (line.map (fun s => if sl s then axisWeight d s else 0)).sum := by
  obtain ⟨h1, h2, h3, h4⟩ := lines_sound d hd line hl
  have hsplit : (line.map (fun s => if sl s then gapsAt d sl s else 0)).sum =
      gapSum (line.map sl) := by
    have hadd : ∀ s, (if sl s then gapsAt d sl s else 0) =
        (if sl s then ((ray d s).takeWhile (fun u => !sl u)).length else 0) +
          (if sl s then ((ray (-d) s).takeWhile (fun u => !sl u)).length else 0) := by
      intro s
      split <;> simp [gapsAt]
    have hrev : (line.map (fun s =>
        if sl s then ((ray (-d) s).takeWhile (fun u => !sl u)).length else 0)).sum =
        gapsAfter (line.map sl).reverse := by
      rw [← List.map_reverse, ← sum_gapsAfter h2 sl, List.map_reverse, List.sum_reverse]
    simp only [hadd]
    rw [List.sum_map_add, sum_gapsAfter h1, hrev]
    rfl
  rw [hsplit, ← weightSum_map, h4]
  apply gapSum_le h3
  rw [← h4, List.length_map, List.length_map]

/-- **All gaps of one kind of line.** -/
theorem sum_gapsAt {d : Dir} (hd : d ∈ axes) (sl : Square → Bool) :
    8 * ∑ s, (if sl s then gapsAt d sl s else 0) ≤
      ((lines d).map (fun line => (lineProfile d line).1)).sum +
        ∑ s, (if sl s then axisWeight d s else 0) := by
  rw [sum_lines hd, sum_lines hd, ← List.sum_map_mul_left, ← List.sum_map_add]
  apply List.sum_le_sum
  intro line hl
  exact sum_gapsAt_line hd hl sl

/-! ## Moves of one man -/

/-- The weight that pays for the moves of a piece. -/
def pieceWeight : Piece → Nat
  | .pawn => 96
  | .knight => 64
  | .bishop => 40
  | .rook => 62
  | .queen => 96
  | .king => 64

theorem axisWeight_le : ∀ p ∈ [Piece.bishop, .rook, .queen], ∀ s,
    (axes.map (fun d => if d ∈ slideDirs p then axisWeight d s else 0)).sum ≤ pieceWeight p := by
  decide

variable {pos : Position}

/-- An own man stands on the square. -/
def Position.own (pos : Position) (s : Square) : Bool := (pos.man s).any (fun m => m.1 = pos.side)

/-- An own man that slides along the lines of a kind. -/
def Position.slider (pos : Position) (d : Dir) (s : Square) : Bool :=
  (pos.man s).any (fun m => m.1 = pos.side ∧ d ∈ slideDirs m.2)

/-- The squares a slider on `s` reaches along one kind of line, own men in the way. -/
def Position.openAlong (pos : Position) (d : Dir) (s : Square) : Nat :=
  ((walk (occupied pos.man) d 7 s).filter (fun u => !pos.own u)).length +
    ((walk (occupied pos.man) (-d) 7 s).filter (fun u => !pos.own u)).length

theorem openAlong_le (pos : Position) (d : Dir) (s : Square) :
    pos.openAlong d s ≤ gapsAt d (pos.slider d) s := by
  have hocc : ∀ u, pos.own u = true → occupied pos.man u = true := by
    intro u
    unfold Position.own occupied
    cases pos.man u <;> simp
  have hown : ∀ u, pos.slider d u = true → pos.own u = true := by
    intro u
    unfold Position.own Position.slider
    cases pos.man u <;> simp +contextual
  exact Nat.add_le_add (length_filter_walk_le hocc hown d 7 s)
    (length_filter_walk_le hocc hown (-d) 7 s)

/-- The squares that are not blocked by an own man, for a piece of the moving side. -/
def Position.freeTargets (pos : Position) (p : Piece) (s : Square) : List Square :=
  (reach pos.man pos.side p s).filter (fun u => !pos.own u)

theorem length_freeTargets {p : Piece} (hp : p ∈ [Piece.bishop, .rook, .queen]) (s : Square) :
    (pos.freeTargets p s).length =
      (axes.map (fun d => if d ∈ slideDirs p then pos.openAlong d s else 0)).sum := by
  have hleap : leapDirs pos.side p = [] := by
    cases p <;> first | rfl | (exfalso; revert hp; decide)
  unfold Position.freeTargets reach
  rw [hleap, List.filterMap_nil, List.nil_append, List.filter_flatMap, List.length_flatMap]
  cases p <;> try (exfalso; revert hp; decide)
  all_goals
    simp [axes, slideDirs, bishopDirs, rookDirs, kingDirs, Position.openAlong]
    try omega

def pawnCandidates (pos : Position) (s : Square) : List Ply :=
  if rnk s = pawnRank pos.side.xside then
    (pushes pos.man pos.side s).flatMap (fun t =>
      promotionPieces.map (fun p => .promote s t p none)) ++
    (reach pos.man pos.side .pawn s).flatMap (fun t =>
      promotionPieces.map (fun p => .promote s t p ((pos.man t).map Prod.snd)))
  else
    (pushes pos.man pos.side s).map (fun t => .move s t .pawn none) ++
    (reach pos.man pos.side .pawn s).map (fun t =>
      match pos.man t with
      | none => .enpassant s t
      | some m => .move s t .pawn (some m.2))

def pieceCandidates (pos : Position) (s : Square) (p : Piece) : List Ply :=
  (pos.freeTargets p s).map (fun t => .move s t p ((pos.man t).map Prod.snd))

def kingCandidates (pos : Position) (s : Square) : List Ply :=
  pieceCandidates pos s .king ++
    ([CastleFlag.wk, .wq, .bk, .bq].filter (fun f => f.kingHome = s)).map .castle

/-- The moves that a man of the moving side could have at most. -/
def candidates (pos : Position) (s : Square) : Piece → List Ply
  | .pawn => pawnCandidates pos s
  | .king => kingCandidates pos s
  | p => pieceCandidates pos s p

theorem Position.Carries.target {src dst : Square} {p : Piece} {cap : Option Piece}
    (h : pos.Carries src dst p cap) : cap = (pos.man dst).map Prod.snd ∧ pos.own dst = false := by
  have hd := h.2.1
  unfold Position.own
  rw [hd]
  cases cap with
  | none => exact ⟨rfl, rfl⟩
  | some q => exact ⟨rfl, by simp⟩

theorem mem_candidates (hs : Sane pos) {ply : Ply} (h : pos.Pseudo ply) :
    ply ∈ candidates pos ply.src ply.piece := by
  cases ply with
  | move src dst p cap =>
    obtain ⟨hc, hl⟩ := h
    obtain ⟨hcap, hown⟩ := hc.target
    by_cases hp : p = .pawn
    · subst hp
      have hr : ¬ rnk src = pawnRank pos.side.xside := fun e =>
        hl ⟨rfl, (promotes_iff hc.2.2).mpr e⟩
      change _ ∈ pawnCandidates pos src
      rw [pawnCandidates, if_neg hr, List.mem_append, List.mem_map, List.mem_map]
      have ht := hc.2.2
      cases cap with
      | none =>
        rw [Option.isSome_none, targets_push] at ht
        exact Or.inl ⟨dst, ht, rfl⟩
      | some q =>
        rw [Option.isSome_some, targets_capture] at ht
        refine Or.inr ⟨dst, ht, ?_⟩
        have hd : pos.man dst = some (pos.side.xside, q) := hc.2.1
        rw [hd]
    · have ht := hc.2.2
      rw [targets_piece hp] at ht
      have hmem : Ply.move src dst p cap ∈ pieceCandidates pos src p := by
        rw [hcap]
        exact List.mem_map.mpr ⟨dst, List.mem_filter.mpr ⟨ht, by simp [hown]⟩, rfl⟩
      cases p <;> first
        | exact absurd rfl hp
        | exact hmem
        | exact List.mem_append_left _ hmem
  | promote src dst p cap =>
    obtain ⟨hc, hl, hp⟩ := h
    obtain ⟨hcap, _⟩ := hc.target
    have hr : rnk src = pawnRank pos.side.xside := (promotes_iff hc.2.2).mp hl
    change _ ∈ pawnCandidates pos src
    rw [pawnCandidates, if_pos hr, List.mem_append, List.mem_flatMap, List.mem_flatMap]
    have ht := hc.2.2
    cases cap with
    | none =>
      rw [Option.isSome_none, targets_push] at ht
      exact Or.inl ⟨dst, ht, List.mem_map.mpr ⟨p, hp, rfl⟩⟩
    | some q =>
      rw [Option.isSome_some, targets_capture] at ht
      exact Or.inr ⟨dst, ht, List.mem_map.mpr ⟨p, hp, by rw [hcap]⟩⟩
  | enpassant src dst =>
    obtain ⟨_, he, ht⟩ := h
    have hep := hs.ep dst he
    have hr : ¬ rnk src = pawnRank pos.side.xside := by
      intro e
      rw [← targets_capture] at ht
      have := (promotes_iff ht).mpr e
      rw [hep.rank] at this
      revert this
      cases pos.side <;> decide
    change _ ∈ pawnCandidates pos src
    rw [pawnCandidates, if_neg hr, List.mem_append, List.mem_map, List.mem_map]
    exact Or.inr ⟨dst, ht, by rw [hep.empty]⟩
  | castle f =>
    apply List.mem_append_right
    refine List.mem_map.mpr ⟨f, List.mem_filter.mpr ⟨?_, ?_⟩, rfl⟩
    · cases f <;> simp
    · simp [Ply.src]

theorem length_pushes_le (man : Placement) (c : Color) (s : Square) :
    (pushes man c s).length ≤ if rnk s = pawnRank c then 2 else 1 := by
  unfold pushes
  cases step s (forward c) with
  | none => simp
  | some t =>
    simp only
    split
    · simp
    · by_cases hr : rnk s = pawnRank c
      · rw [if_pos hr, if_pos hr, List.length_cons]
        have h1 := List.length_filter_le (fun u => !occupied man u) (step t (forward c)).toList
        have h2 : (step t (forward c)).toList.length ≤ 1 := by cases step t (forward c) <;> simp
        omega
      · rw [if_neg hr, if_neg hr]
        simp

theorem length_reach_leap_le (man : Placement) (c : Color) {p : Piece} (hp : slideDirs p = [])
    (s : Square) : (reach man c p s).length ≤ (leapDirs c p).length := by
  unfold reach
  rw [hp, List.flatMap_nil, List.append_nil]
  exact List.length_filterMap_le _ _

theorem length_pawn_reach_le (man : Placement) (c : Color) (s : Square) :
    (reach man c .pawn s).length ≤ 2 :=
  length_reach_leap_le man c rfl s

theorem length_freeTargets_leap_le {p : Piece} (hp : slideDirs p = []) (s : Square) :
    (pos.freeTargets p s).length ≤ (leapDirs pos.side p).length :=
  (List.length_filter_le _ _).trans (length_reach_leap_le _ _ hp s)

/-- On its home square a king has five neighbours and two castling moves. -/
theorem king_home_bound : ∀ s : Square,
    (kingDirs.filterMap (step s)).length +
      ([CastleFlag.wk, .wq, .bk, .bq].filter (fun f => f.kingHome = s)).length ≤ 8 := by
  decide

/-- What pays for the moves of the pieces that do not slide. -/
def restWeight : Piece → Nat
  | .pawn => 96
  | .knight => 64
  | .king => 64
  | _ => 0

theorem length_flatMap_const {α β : Type} {l : List α} {f : α → List β} {n : Nat}
    (h : ∀ a ∈ l, (f a).length = n) : (l.flatMap f).length = l.length * n := by
  rw [List.length_flatMap, List.map_congr_left h, List.map_const', List.sum_replicate, smul_eq_mul]

theorem length_candidates_pawn (pos : Position) (s : Square) :
    8 * (candidates pos s .pawn).length ≤ restWeight .pawn := by
  have hpush := length_pushes_le pos.man pos.side s
  have hreach := length_pawn_reach_le pos.man pos.side s
  change 8 * (pawnCandidates pos s).length ≤ 96
  unfold pawnCandidates
  split
  · rename_i hr
    have hne : ¬ rnk s = pawnRank pos.side := by
      rw [hr]
      cases pos.side <;> decide
    rw [if_neg hne] at hpush
    rw [List.length_append, length_flatMap_const (n := 4) (fun _ _ => rfl),
      length_flatMap_const (n := 4) (fun _ _ => rfl)]
    omega
  · rw [List.length_append, List.length_map, List.length_map]
    split at hpush <;> omega

theorem length_candidates_king (pos : Position) (s : Square) :
    8 * (candidates pos s .king).length ≤ restWeight .king := by
  have h := king_home_bound s
  have hfree : (pos.freeTargets .king s).length ≤ (kingDirs.filterMap (step s)).length := by
    refine (List.length_filter_le _ _).trans ?_
    simp [reach, slideDirs, leapDirs]
  change 8 * (kingCandidates pos s).length ≤ 64
  unfold kingCandidates pieceCandidates
  rw [List.length_append, List.length_map, List.length_map]
  omega

theorem length_candidates_knight (pos : Position) (s : Square) :
    8 * (candidates pos s .knight).length ≤ restWeight .knight := by
  have h : (pos.freeTargets .knight s).length ≤ (leapDirs pos.side .knight).length :=
    length_freeTargets_leap_le rfl s
  change 8 * (pieceCandidates pos s .knight).length ≤ 64
  unfold pieceCandidates
  rw [List.length_map]
  have h8 : (leapDirs pos.side .knight).length = 8 := rfl
  omega

/-- **The moves of one man are paid for by the open squares of its lines or by a weight.** -/
theorem length_candidates_le (pos : Position) (s : Square) (p : Piece) :
    8 * (candidates pos s p).length ≤
      8 * (axes.map (fun d => if d ∈ slideDirs p then pos.openAlong d s else 0)).sum +
        restWeight p := by
  have hslide : ∀ p ∈ [Piece.bishop, .rook, .queen],
      (candidates pos s p).length = (pos.freeTargets p s).length := by
    intro p hp
    cases p <;> first | (exfalso; revert hp; decide) | exact List.length_map _
  cases p with
  | pawn => exact (length_candidates_pawn pos s).trans (Nat.le_add_left _ _)
  | knight => exact (length_candidates_knight pos s).trans (Nat.le_add_left _ _)
  | king => exact (length_candidates_king pos s).trans (Nat.le_add_left _ _)
  | bishop => rw [hslide _ (by decide), length_freeTargets (by decide)]; exact Nat.le_add_right _ _
  | rook => rw [hslide _ (by decide), length_freeTargets (by decide)]; exact Nat.le_add_right _ _
  | queen => rw [hslide _ (by decide), length_freeTargets (by decide)]; exact Nat.le_add_right _ _

/-! ## Material -/

/-- The number of men of a kind. -/
def count (man : Placement) (c : Color) (p : Piece) : Nat := occurrences man (some (c, p))

/-- The promotions that the men of a side account for at least, plus its pawns. -/
def surplus (man : Placement) (c : Color) : Nat :=
  count man c .pawn + (count man c .queen - 1) + (count man c .rook - 2) +
    (count man c .bishop - 2) + (count man c .knight - 2)

def MaterialOk (pos : Position) : Prop := ∀ c, surplus pos.man c ≤ 8

/-- One if a square holds the man that is counted. -/
def tally (m : Option Man) (w : Man) : Nat := if m = some w then 1 else 0

@[simp] theorem tally_none (w : Man) : tally none w = 0 := rfl

theorem tally_some (c d : Color) (p a : Piece) :
    tally (some (c, p)) (d, a) = if c = d ∧ p = a then 1 else 0 := by
  simp only [tally, Option.some.injEq, Prod.mk.injEq]

theorem count_update (man : Placement) (s : Square) (m : Option Man) (d : Color) (a : Piece) :
    count (Function.update man s m) d a + tally (man s) (d, a) =
      count man d a + tally m (d, a) :=
  occurrences_update man s m (some (d, a))

/-- **A move changes the counts by what it captures and promotes.** -/
theorem count_placement (hs : Sane pos) {ply : Ply} (h : pos.Pseudo ply) (d : Color) (a : Piece) :
    count (pos.placement ply) d a +
        tally (ply.captured.map (fun q => (pos.side.xside, q))) (d, a) +
        tally (some (pos.side, ply.piece)) (d, a) =
      count pos.man d a + tally (some (pos.side, ply.placed)) (d, a) := by
  have hne := h.src_ne_dst
  cases ply with
  | move src dst p cap =>
    simp only [Ply.src, Ply.dst] at hne
    have e1 := count_update pos.man src none d a
    have e2 := count_update (Function.update pos.man src none) dst (some (pos.side, p)) d a
    rw [Function.update_of_ne hne.symm, h.1.2.1] at e2
    rw [h.1.1, tally_none] at e1
    simp only [Position.placement, Ply.captured, Ply.piece, Ply.placed]
    omega
  | promote src dst p cap =>
    simp only [Ply.src, Ply.dst] at hne
    have e1 := count_update pos.man src none d a
    have e2 := count_update (Function.update pos.man src none) dst (some (pos.side, p)) d a
    rw [Function.update_of_ne hne.symm, h.1.2.1] at e2
    rw [h.1.1, tally_none] at e1
    simp only [Position.placement, Ply.captured, Ply.piece, Ply.placed]
    omega
  | enpassant src dst =>
    simp only [Ply.src, Ply.dst] at hne
    have hv := hs.victim h.2.1 h.2.2
    have he := (hs.ep dst h.2.1).empty
    have hvd : epVictim src dst ≠ dst := by rintro e; rw [e, he] at hv; cases hv
    have hvs : epVictim src dst ≠ src := by
      rintro e
      rw [e, h.1] at hv
      exact ne_xside pos.side (congrArg Prod.fst (Option.some.inj hv))
    have e1 := count_update pos.man src none d a
    have e2 := count_update (Function.update pos.man src none) dst (some (pos.side, .pawn)) d a
    have e3 := count_update (Function.update (Function.update pos.man src none) dst
      (some (pos.side, .pawn))) (epVictim src dst) none d a
    rw [Function.update_of_ne hvd, Function.update_of_ne hvs, hv, tally_none] at e3
    rw [Function.update_of_ne hne.symm, he, tally_none] at e2
    rw [h.1, tally_none] at e1
    simp only [Position.placement, Ply.captured, Ply.piece, Ply.placed, Option.map_some]
    omega
  | castle f =>
    obtain ⟨_, _, hk, hr, hclear, _⟩ := h
    have hd : f.kingDest ≠ f.kingHome ∧ f.rookHome ≠ f.kingDest ∧ f.rookHome ≠ f.kingHome ∧
        f.transit ≠ f.rookHome ∧ f.transit ≠ f.kingDest ∧ f.transit ≠ f.kingHome := by
      cases f <;> decide
    obtain ⟨d1, d2, d3, d4, d5, d6⟩ := hd
    have e1 := count_update pos.man f.kingHome none d a
    have e2 := count_update (Function.update pos.man f.kingHome none) f.kingDest
      (some (pos.side, .king)) d a
    have e3 := count_update (Function.update (Function.update pos.man f.kingHome none)
      f.kingDest (some (pos.side, .king))) f.rookHome none d a
    have e4 := count_update (Function.update (Function.update (Function.update pos.man
      f.kingHome none) f.kingDest (some (pos.side, .king))) f.rookHome none) f.transit
      (some (pos.side, .rook)) d a
    rw [Function.update_of_ne d4, Function.update_of_ne d5, Function.update_of_ne d6,
      hclear _ (between_transit f), tally_none] at e4
    rw [Function.update_of_ne d2, Function.update_of_ne d3, hr, tally_none] at e3
    rw [Function.update_of_ne d1, hclear _ (between_kingDest f), tally_none] at e2
    rw [hk, tally_none] at e1
    simp only [Position.placement, Ply.captured, Ply.piece, Ply.placed, Option.map_none,
      tally_none]
    omega

theorem Position.Pseudo.placed_cases {ply : Ply} (h : pos.Pseudo ply) :
    ply.placed = ply.piece ∨ (ply.piece = .pawn ∧ ply.placed ∈ promotionPieces) := by
  cases ply with
  | promote src dst p cap => exact Or.inr ⟨rfl, h.2.2⟩
  | _ => exact Or.inl rfl

theorem surplus_mono {man man' : Placement} {d : Color} (h : ∀ a, count man d a ≤ count man' d a) :
    surplus man d ≤ surplus man' d := by
  unfold surplus
  have hp := h .pawn
  have hn := h .knight
  have hb := h .bishop
  have hr := h .rook
  have hq := h .queen
  gcongr

/-- A pawn counts as much as what it is exchanged for. -/
theorem surplus_promote {man man' : Placement} {d : Color} {p : Piece} (hp : p ∈ promotionPieces)
    (h : ∀ a, count man d a + (if Piece.pawn = a then 1 else 0) ≤
      count man' d a + if p = a then 1 else 0) : surplus man d ≤ surplus man' d := by
  have hsub : ∀ (k : Nat) (a : Piece),
      count man d a - k ≤ count man' d a - k + if p = a then 1 else 0 := by
    intro k a
    have ha := h a
    omega
  have hpawn := h .pawn
  have hq := hsub 1 .queen
  have hr := hsub 2 .rook
  have hb := hsub 2 .bishop
  have hn := hsub 2 .knight
  unfold surplus
  cases p with
  | pawn | king => simp [promotionPieces] at hp
  | queen | rook | bishop | knight =>
    simp only [if_true, reduceCtorEq, if_false, Nat.add_zero] at hpawn hn hb hr hq
    omega

/-- No move adds to the surplus of either side. -/
theorem surplus_placement (hs : Sane pos) {ply : Ply} (h : pos.Pseudo ply) (d : Color) :
    surplus (pos.placement ply) d ≤ surplus pos.man d := by
  have hc := count_placement hs h d
  rcases h.placed_cases with e | ⟨e1, e2⟩
  · refine surplus_mono fun a => ?_
    have ha := hc a
    rw [e] at ha
    omega
  · simp only [e1, tally_some] at hc
    by_cases hd : pos.side = d
    · refine surplus_promote e2 fun a => ?_
      have ha := hc a
      simp only [hd, true_and] at ha
      omega
    · refine surplus_mono fun a => ?_
      have ha := hc a
      simp only [hd, false_and, if_false] at ha
      omega

theorem MaterialOk.apply (hm : MaterialOk pos) (hs : Sane pos) {ply : Ply} (h : pos.Pseudo ply) :
    MaterialOk (pos.apply ply) :=
  fun c => (surplus_placement hs h c).trans (hm c)

theorem MaterialOk.pass (hm : MaterialOk pos) : MaterialOk pos.pass := hm

/-! ## The bound -/

/-- The weight of the own man on a square. -/
def ownWeight (pos : Position) (s : Square) : Nat :=
  (pos.man s).elim 0 (fun m => if m.1 = pos.side then pieceWeight m.2 else 0)

/-- What the own man on a square is given besides. -/
def ownRest (pos : Position) (s : Square) : Nat :=
  (pos.man s).elim 0 (fun m => if m.1 = pos.side then restWeight m.2 else 0)

theorem sum_ownWeight (pos : Position) :
    ∑ s, ownWeight pos s = ∑ p, count pos.man pos.side p * pieceWeight p := by
  have hpt : ∀ s, ownWeight pos s =
      ∑ p, if pos.man s = some (pos.side, p) then pieceWeight p else 0 := by
    intro s
    unfold ownWeight
    cases hm : pos.man s with
    | none => simp
    | some m =>
      obtain ⟨c, q⟩ := m
      simp only [Option.elim_some, Option.some.injEq, Prod.mk.injEq]
      by_cases hc : c = pos.side
      · simp [hc]
      · simp [hc]
  simp only [hpt]
  rw [Finset.sum_comm]
  refine Finset.sum_congr rfl fun p _ => ?_
  rw [← Finset.sum_filter, Finset.sum_const, smul_eq_mul]
  rfl

theorem count_king (hs : Sane pos) : count pos.man pos.side .king = 1 := by
  obtain ⟨k, hk⟩ := hs.king_exists pos.side
  unfold count occurrences
  refine Finset.card_eq_one.mpr ⟨k, ?_⟩
  ext s
  simp only [Finset.mem_filter, Finset.mem_univ, true_and, Finset.mem_singleton]
  exact ⟨fun e => hs.king_unique _ _ _ e hk, fun e => e ▸ hk⟩

theorem sum_ownWeight_le (hs : Sane pos) (hm : MaterialOk pos) : ∑ s, ownWeight pos s ≤ 1260 := by
  have hk := count_king hs
  have hsur := hm pos.side
  have huniv : (Finset.univ : Finset Piece) =
      {.pawn, .knight, .bishop, .rook, .queen, .king} := rfl
  unfold surplus at hsur
  rw [sum_ownWeight, huniv]
  simp only [Finset.mem_insert, Finset.mem_singleton, reduceCtorEq, or_self, not_false_eq_true,
    Finset.sum_insert, Finset.sum_singleton, pieceWeight, hk]
  omega

theorem slider_axisWeight_le (pos : Position) (s : Square) :
    (axes.map (fun d => if pos.slider d s then axisWeight d s else 0)).sum + ownRest pos s ≤
      ownWeight pos s := by
  unfold Position.slider ownRest ownWeight
  cases hm : pos.man s with
  | none => simp
  | some m =>
    obtain ⟨c, p⟩ := m
    by_cases hc : c = pos.side
    · simp only [Option.any_some, hc, true_and, decide_eq_true_eq, Option.elim_some, if_true]
      cases p with
      | bishop => exact axisWeight_le .bishop (by decide) s
      | rook => exact axisWeight_le .rook (by decide) s
      | queen => exact axisWeight_le .queen (by decide) s
      | _ => simp [slideDirs, restWeight, pieceWeight]
    · simp [hc]

/-- The open squares of the lines that sliders look along. -/
def gapWeight (pos : Position) (s : Square) : Nat :=
  (axes.map (fun d => if pos.slider d s then gapsAt d (pos.slider d) s else 0)).sum

/-- The moves of the man on a square are among its candidates. -/
theorem length_fiber_le (hs : Sane pos) {l : List Ply} (hl : l.Nodup)
    (hp : ∀ ply ∈ l, pos.Pseudo ply) (s : Square) :
    8 * (l.filter (fun ply => ply.src = s)).length ≤ 8 * gapWeight pos s + ownRest pos s := by
  cases hf : l.filter (fun ply => ply.src = s) with
  | nil => simp
  | cons ply rest =>
    have hmem : ∀ x ∈ l.filter (fun ply => ply.src = s), pos.Pseudo x ∧ x.src = s := by
      intro x hx
      rw [List.mem_filter, decide_eq_true_iff] at hx
      exact ⟨hp x hx.1, hx.2⟩
    have hply := hmem ply (by rw [hf]; exact List.mem_cons_self)
    have hman : pos.man s = some (pos.side, ply.piece) := by
      rw [← hply.2]
      exact hply.1.man_src
    have hsub : l.filter (fun ply => ply.src = s) ⊆ candidates pos s ply.piece := by
      intro x hx
      obtain ⟨hx1, hx2⟩ := hmem x hx
      have := mem_candidates hs hx1
      have hpc : x.piece = ply.piece := by
        have hx3 := hx1.man_src
        rw [hx2, hman] at hx3
        exact (congrArg Prod.snd (Option.some.inj hx3)).symm
      rwa [hx2, hpc] at this
    have hlen := (List.subperm_of_subset (hl.filter _) hsub).length_le
    rw [hf] at hlen
    have hcand := length_candidates_le pos s ply.piece
    have hopen : (axes.map (fun d =>
        if d ∈ slideDirs ply.piece then pos.openAlong d s else 0)).sum ≤ gapWeight pos s := by
      apply List.sum_le_sum
      intro d _
      have hsl : pos.slider d s = decide (d ∈ slideDirs ply.piece) := by
        simp [Position.slider, hman]
      rw [hsl]
      simp only [decide_eq_true_eq]
      split
      · exact openAlong_le pos d s
      · exact le_rfl
    have hrest : ownRest pos s = restWeight ply.piece := by
      unfold ownRest
      rw [hman]
      simp only [Option.elim_some, if_true]
    rw [hrest]
    omega

theorem length_eq_sum_fibers {l : List Ply} (hl : l.Nodup) :
    l.length = ∑ s, (l.filter (fun ply => ply.src = s)).length := by
  have := Finset.sum_card_fiberwise_eq_card_filter l.toFinset Finset.univ Ply.src
  simp only [Finset.mem_univ, Finset.filter_true] at this
  rw [← List.toFinset_card_of_nodup hl, ← this]
  refine Finset.sum_congr rfl fun s _ => ?_
  rw [← List.toFinset_card_of_nodup (hl.filter _), List.toFinset_filter]
  simp

theorem sum_gapWeight_le (pos : Position) : 8 * ∑ s, gapWeight pos s ≤
    792 + ∑ s, (axes.map (fun d => if pos.slider d s then axisWeight d s else 0)).sum := by
  have hc := lines_const
  unfold gapWeight
  simp only [axes, List.map_cons, List.map_nil, List.sum_cons, List.sum_nil] at hc ⊢
  simp only [Finset.sum_add_distrib, Finset.sum_const_zero]
  have g1 := sum_gapsAt (d := (1, 0)) (by decide) (pos.slider (1, 0))
  have g2 := sum_gapsAt (d := (0, 1)) (by decide) (pos.slider (0, 1))
  have g3 := sum_gapsAt (d := (1, 1)) (by decide) (pos.slider (1, 1))
  have g4 := sum_gapsAt (d := (1, -1)) (by decide) (pos.slider (1, -1))
  omega

/-- **A position never has more pseudo-legal moves than a move list has room for.** -/
theorem pseudo_length_le (hs : Sane pos) (hm : MaterialOk pos) {l : List Ply} (hl : l.Nodup)
    (hp : ∀ ply ∈ l, pos.Pseudo ply) : l.length ≤ 256 := by
  have hgaps := sum_gapWeight_le pos
  have hown := sum_ownWeight_le hs hm
  have hweights : ∑ s, (axes.map (fun d => if pos.slider d s then axisWeight d s else 0)).sum +
      ∑ s, ownRest pos s ≤ ∑ s, ownWeight pos s := by
    rw [← Finset.sum_add_distrib]
    exact Finset.sum_le_sum fun s _ => slider_axisWeight_le pos s
  have htotal : 8 * l.length ≤ 8 * ∑ s, gapWeight pos s + ∑ s, ownRest pos s := by
    rw [length_eq_sum_fibers hl, Finset.mul_sum, Finset.mul_sum, ← Finset.sum_add_distrib]
    exact Finset.sum_le_sum fun s _ => length_fiber_le hs hl hp s
  omega

end HoiChess.Chess.Rules
