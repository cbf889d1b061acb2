import Mathlib.Algebra.BigOperators.Fin
import HoiChess.Xiangqi.Simulation

/-!
# Move generation finds exactly the moves of the rules

On a board that represents a valid position the move list has room for all moves, and they are
the pseudo-legal ones, each once (`Sim.mem_generateMoves`, `Sim.generateMoves_nodup`).
What is asked of that list is then answered by the rules: which squares are attacked
(`Sim.isAttacked`), whether the generals face each other (`Sim.kingsFacingWalk`), and which
moves are legal (`Sim.mem_legalMoves`).
-/

namespace HoiChess.Xiangqi

open Grid Rules
open Chess (Color PerColor)

/-! ## The lists of captures and of other moves -/

namespace Board

variable (b : Board)

/-- All moves that one of the two loops finds. -/
def found (add : Square → Piece → Square → List Move) : List Move :=
  (List.finRange 90).flatMap (b.movesFrom add)

/-- What a loop does with one attacked square: it adds at most one move, from and to there. -/
structure Adds (add : Square → Piece → Square → List Move) : Prop where
  movFrom : ∀ {src p dst mov}, mov ∈ add src p dst → mov.movFrom = some src
  movTo : ∀ {src p dst mov}, mov ∈ add src p dst → mov.movTo = some dst
  nodup : ∀ src p dst, (add src p dst).Nodup

variable {b}

theorem mem_captureTo {src dst : Square} {p : Piece} {mov : Move} :
    mov ∈ b.captureTo src p dst ↔ b.colorAt dst = some b.side.xside ∧
      ∃ q, b.pieceAt dst = some q ∧ Move.capture src dst p q = mov := by
  unfold captureTo
  split <;> simp [*]

theorem mem_noncaptureTo {src dst : Square} {p : Piece} {mov : Move} :
    mov ∈ b.noncaptureTo src p dst ↔ b.colorAt dst = none ∧ Move.normal src dst p = mov := by
  unfold noncaptureTo
  split
  · rename_i hd
    rw [List.mem_singleton, and_iff_right hd, eq_comm]
  · rename_i hd
    exact iff_of_false List.not_mem_nil (fun e => hd e.1)

theorem adds_captureTo (b : Board) : Adds b.captureTo where
  movFrom h := by
    obtain ⟨_, q, _, rfl⟩ := mem_captureTo.mp h
    rfl
  movTo h := by
    obtain ⟨_, q, _, rfl⟩ := mem_captureTo.mp h
    rfl
  nodup src p dst := by
    unfold captureTo
    split
    · cases b.pieceAt dst <;> simp
    · exact List.nodup_nil

theorem adds_noncaptureTo (b : Board) : Adds b.noncaptureTo where
  movFrom h := by
    obtain ⟨_, rfl⟩ := mem_noncaptureTo.mp h
    rfl
  movTo h := by
    obtain ⟨_, rfl⟩ := mem_noncaptureTo.mp h
    rfl
  nodup src p dst := by
    unfold noncaptureTo
    split
    · exact List.nodup_singleton _
    · exact List.nodup_nil

theorem mem_movesFrom {add : Square → Piece → Square → List Move} {src : Square} {mov : Move} :
    mov ∈ b.movesFrom add src ↔ b.colorAt src = some b.side ∧
      ∃ p, b.pieceAt src = some p ∧ ∃ dst ∈ b.attacks p src b.side, mov ∈ add src p dst := by
  unfold movesFrom
  by_cases hc : b.colorAt src = some b.side
  · rw [if_neg (not_not.mpr hc)]
    cases b.pieceAt src with
    | none => simp
    | some p => simp [hc]
  · rw [if_pos hc]
    simp [hc]

theorem found_nodup {man : Placement} (hcol : Colored b man)
    {add : Square → Piece → Square → List Move} (hadd : Adds add) : (b.found add).Nodup := by
  have hfrom : ∀ {src : Square} {mov : Move}, mov ∈ b.movesFrom add src → mov.movFrom = some src := by
    intro src mov hm
    obtain ⟨_, p, _, dst, _, h⟩ := mem_movesFrom.mp hm
    exact hadd.movFrom h
  refine nodup_flatMap (List.nodup_finRange 90) (fun src _ => ?_) fun src _ src' _ mov h h' => ?_
  · unfold movesFrom
    split
    · exact List.nodup_nil
    · cases b.pieceAt src with
      | none => exact List.nodup_nil
      | some p =>
        refine nodup_flatMap (attacks_nodup hcol p src b.side) (fun dst _ => hadd.nodup src p dst) ?_
        intro dst _ dst' _ mov h h'
        exact Option.some.inj ((hadd.movTo h).symm.trans (hadd.movTo h'))
  · exact Option.some.inj ((hfrom h).symm.trans (hfrom h'))

/-- Captures and other moves are told apart by the flag. -/
theorem found_disjoint (b : Board) : List.Disjoint (b.found b.captureTo) (b.found b.noncaptureTo) := by
  intro mov h h'
  obtain ⟨src, _, hs⟩ := List.mem_flatMap.mp h
  obtain ⟨src', _, hs'⟩ := List.mem_flatMap.mp h'
  obtain ⟨_, p, _, dst, _, hd⟩ := mem_movesFrom.mp hs
  obtain ⟨_, p', _, dst', _, hd'⟩ := mem_movesFrom.mp hs'
  obtain ⟨_, q, _, rfl⟩ := mem_captureTo.mp hd
  obtain ⟨_, e⟩ := mem_noncaptureTo.mp hd'
  have hcap := congrArg Move.isCapture e
  rw [Move.isCapture_normal, Move.isCapture_capture] at hcap
  cases hcap

/-! ## There is room for all of them -/

theorem flatMap_two_length_le {ι α : Type} (l : List ι) {f g : ι → List α}
    (h : ∀ i ∈ l, (f i).length + (g i).length ≤ 1) :
    (l.flatMap f).length + (l.flatMap g).length ≤ l.length := by
  induction l with
  | nil => simp
  | cons i l ih =>
    have h1 := h i List.mem_cons_self
    have h2 := ih fun j hj => h j (List.mem_cons_of_mem i hj)
    rw [List.flatMap_cons, List.flatMap_cons, List.length_append, List.length_append,
      List.length_cons]
    omega

theorem movesFrom_length_le {man : Placement} (hcol : Colored b man)
    (hpieces : ∀ sq, b.pieceAt sq = (man sq).map Prod.snd) (src : Square) :
    (((b.movesFrom b.captureTo src).length + (b.movesFrom b.noncaptureTo src).length : ℕ) : ℤ) ≤
      manMobility b.side (man src) := by
  unfold movesFrom
  have hc : b.colorAt src = (man src).map Prod.fst := hcol src
  have hp := hpieces src
  cases hm : man src with
  | none =>
    rw [hm] at hc
    have hne : b.colorAt src ≠ some b.side := by rw [hc]; exact Option.some_ne_none _ |>.symm
    rw [if_pos hne, if_pos hne]
    exact le_refl 0
  | some m =>
    obtain ⟨c, p⟩ := m
    rw [hm] at hc hp
    by_cases hcs : c = b.side
    · have heq : b.colorAt src = some b.side := by rw [hc, ← hcs]; rfl
      have hpm : b.pieceAt src = some p := hp
      rw [if_neg (not_not.mpr heq), if_neg (not_not.mpr heq), hpm]
      simp only [manMobility, if_pos hcs]
      have hone : ∀ dst ∈ b.attacks p src b.side,
          (b.captureTo src p dst).length + (b.noncaptureTo src p dst).length ≤ 1 := by
        intro dst _
        unfold captureTo noncaptureTo
        by_cases hd : b.colorAt dst = some b.side.xside
        · rw [if_pos hd, if_neg (by rw [hd]; exact Option.some_ne_none _)]
          cases b.pieceAt dst <;> simp
        · rw [if_neg hd]
          split <;> simp
      have hlen := flatMap_two_length_le (b.attacks p src b.side) hone
      exact_mod_cast hlen.trans (attacks_length_le p src b.side)
    · have hne : b.colorAt src ≠ some b.side := by
        rw [hc]
        exact fun e => hcs (Option.some.inj e)
      rw [if_pos hne, if_pos hne]
      exact manMobility_nonneg _ _

theorem found_length_le {man : Placement} (hcol : Colored b man)
    (hpieces : ∀ sq, b.pieceAt sq = (man sq).map Prod.snd)
    (hroom : ∑ sq, manMobility b.side (man sq) ≤ 256) :
    (b.found b.captureTo).length + (b.found b.noncaptureTo).length ≤ movelistMaxsize := by
  have hsum : ∀ l : List Square,
      (((l.flatMap (b.movesFrom b.captureTo)).length +
        (l.flatMap (b.movesFrom b.noncaptureTo)).length : ℕ) : ℤ) ≤
      (l.map (fun sq => manMobility b.side (man sq))).sum := by
    intro l
    induction l with
    | nil => exact le_refl 0
    | cons src l ih =>
      have h := movesFrom_length_le hcol hpieces src
      rw [List.flatMap_cons, List.flatMap_cons, List.length_append, List.length_append,
        List.map_cons, List.sum_cons]
      push_cast at h ih ⊢
      omega
  rw [Fin.sum_univ_def] at hroom
  exact_mod_cast (hsum _).trans hroom

end Board

/-! ## The moves of a position -/

section Keys

variable [Keys] {b : Board} {pos : Position}

namespace Sim

theorem mem_movesFrom (h : Sim b pos) {add : Square → Piece → Square → List Move} {src : Square}
    {mov : Move} : mov ∈ b.movesFrom add src ↔
      ∃ p, pos.man src = some (pos.side, p) ∧ ∃ dst ∈ b.attacks p src pos.side, mov ∈ add src p dst := by
  have hc : b.colorAt src = (pos.man src).map Prod.fst := h.consistent.colors src
  have hp := h.consistent.pieces src
  rw [Board.mem_movesFrom, h.side, hc, hp]
  cases pos.man src with
  | none => simp
  | some m =>
    obtain ⟨c, p⟩ := m
    simp only [Option.map_some, Option.some.injEq, Prod.mk.injEq]
    constructor
    · rintro ⟨rfl, q, rfl, hq⟩
      exact ⟨p, ⟨rfl, rfl⟩, hq⟩
    · rintro ⟨q, ⟨rfl, rfl⟩, hq⟩
      exact ⟨rfl, p, rfl, hq⟩

theorem mem_captureTo (h : Sim b pos) {src dst : Square} {p : Piece} {mov : Move} :
    mov ∈ b.captureTo src p dst ↔
      ∃ q, pos.man dst = some (pos.side.xside, q) ∧ (Ply.mk src dst p (some q)).encode = mov := by
  have hc : b.colorAt dst = (pos.man dst).map Prod.fst := h.consistent.colors dst
  have hp := h.consistent.pieces dst
  rw [Board.mem_captureTo, h.side, hc, hp]
  cases pos.man dst with
  | none => simp
  | some m =>
    obtain ⟨c, r⟩ := m
    simp only [Option.map_some, Option.some.injEq, Prod.mk.injEq]
    constructor
    · rintro ⟨rfl, q, rfl, hq⟩
      exact ⟨r, ⟨rfl, rfl⟩, hq⟩
    · rintro ⟨q, ⟨rfl, rfl⟩, hq⟩
      exact ⟨rfl, r, rfl, hq⟩

theorem mem_noncaptureTo (h : Sim b pos) {src dst : Square} {p : Piece} {mov : Move} :
    mov ∈ b.noncaptureTo src p dst ↔
      pos.man dst = none ∧ (Ply.mk src dst p none).encode = mov := by
  rw [Board.mem_noncaptureTo, h.consistent.colors.eq_none]
  rfl

/-- **The two loops find the pseudo-legal moves.** -/
theorem mem_found (h : Sim b pos) (hv : Valid pos) {mov : Move} :
    mov ∈ b.found b.captureTo ++ b.found b.noncaptureTo ↔
      ∃ ply, pos.Pseudo ply ∧ ply.encode = mov := by
  have hattacks : ∀ {src dst : Square} {p : Piece} (cap : Option Piece),
      pos.man src = some (pos.side, p) → pos.man dst = cap.map (fun q => (pos.side.xside, q)) →
      (dst ∈ b.attacks p src pos.side ↔ Moves pos.man pos.side cap.isSome src dst p) :=
    fun _ hm hd => Board.mem_attacks h.consistent.colors (hv.inPlace _ _ _ hm) hd
  rw [List.mem_append]
  unfold Board.found
  simp only [List.mem_flatMap, List.mem_finRange, true_and, h.mem_movesFrom, h.mem_captureTo,
    h.mem_noncaptureTo]
  constructor
  · rintro (⟨src, p, hs, dst, hd, q, hq, rfl⟩ | ⟨src, p, hs, dst, hd, hq, rfl⟩)
    · exact ⟨⟨src, dst, p, some q⟩, ⟨hs, hq, (hattacks (some q) hs hq).mp hd⟩, rfl⟩
    · exact ⟨⟨src, dst, p, none⟩, ⟨hs, hq, (hattacks none hs hq).mp hd⟩, rfl⟩
  · rintro ⟨⟨src, dst, p, cap⟩, ⟨hs, hd, hm⟩, rfl⟩
    have ht := (hattacks cap hs hd).mpr hm
    cases cap with
    | none => exact .inr ⟨src, p, hs, dst, ht, hd, rfl⟩
    | some q => exact .inl ⟨src, p, hs, dst, ht, q, hd, rfl⟩

/-- **No move is dropped for want of room.** -/
theorem generateMoves_moves (h : Sim b pos) (hv : Valid pos) :
    (b.generateMoves .empty).moves = b.found b.captureTo ++ b.found b.noncaptureTo := by
  have hroom : ∑ sq, manMobility b.side (pos.man sq) ≤ 256 := hv.room b.side
  have hlen := Board.found_length_le h.consistent.colors h.consistent.pieces hroom
  have h1 : (b.generateCaptures .empty).entries =
      (b.found b.captureTo).map (fun mov => (mov, 0)) := by
    refine (Capped.addAll_entries ?_).trans (List.nil_append _)
    rw [Capped.entries_empty, List.length_nil, List.length_map, Nat.zero_add]
    exact (Nat.le_add_right _ _).trans hlen
  have h2 : (b.generateMoves .empty).entries =
      (b.generateCaptures .empty).entries ++ (b.found b.noncaptureTo).map (fun mov => (mov, 0)) := by
    refine Capped.addAll_entries ?_
    rw [h1, List.length_map, List.length_map]
    exact hlen
  unfold Movelist.moves
  rw [h2, h1, ← List.map_append, List.map_map]
  exact List.map_id _

theorem mem_generateMoves (h : Sim b pos) (hv : Valid pos) {mov : Move} :
    mov ∈ (b.generateMoves .empty).moves ↔ ∃ ply, pos.Pseudo ply ∧ ply.encode = mov := by
  rw [h.generateMoves_moves hv, h.mem_found hv]

theorem generateMoves_nodup (h : Sim b pos) (hv : Valid pos) :
    (b.generateMoves .empty).moves.Nodup := by
  rw [h.generateMoves_moves hv]
  exact List.Nodup.append (Board.found_nodup h.consistent.colors (Board.adds_captureTo b))
    (Board.found_nodup h.consistent.colors (Board.adds_noncaptureTo b)) (Board.found_disjoint b)

/-! ## Attacked squares -/

theorem any_movTo (h : Sim b pos) (hv : Valid pos) (sq : Square) :
    (b.generateMoves .empty).moves.any (fun mov => mov.movTo = some sq) = true ↔ pos.Attacks sq := by
  rw [List.any_eq_true]
  constructor
  · rintro ⟨mov, hm, hto⟩
    obtain ⟨ply, hp, rfl⟩ := (h.mem_generateMoves hv).mp hm
    rw [decide_eq_true_eq, Ply.movTo_encode] at hto
    exact ⟨ply, hp, Option.some.inj hto⟩
  · rintro ⟨ply, hp, rfl⟩
    refine ⟨ply.encode, (h.mem_generateMoves hv).mpr ⟨ply, hp, rfl⟩, ?_⟩
    rw [decide_eq_true_eq, Ply.movTo_encode]

theorem isAttacked (h : Sim b pos) (hv : Valid pos) (sq : Square) :
    b.isAttacked (some sq) pos.side = true ↔ pos.Attacks sq := by
  unfold Board.isAttacked
  rw [if_neg (by rw [h.side]; exact fun e => e rfl)]
  exact h.any_movTo hv sq

/-- Asked for the side not to move, a null move is made first. -/
theorem isAttacked_xside (h : Sim b pos) (hv : Valid pos) (sq : Square) :
    b.isAttacked (some sq) pos.side.xside = true ↔ pos.pass.Attacks sq := by
  unfold Board.isAttacked
  rw [if_pos (by rw [h.side]; exact Chess.xside_ne _)]
  exact h.makeNull.any_movTo hv.pass sq

end Sim

end Keys

end HoiChess.Xiangqi
