import HoiChess.Common.SoundNode

/-!
# How moves are ordered

`score_moves()` reads the values of pieces from a table with six entries.  A move word that holds
no captured piece has the code 7 in its place; only promotions that capture nothing get
scored with it (`tableReads_in_range_iff`).  `pick()` returns a move with the best of the
scores that remain (`pick_spec`).
-/

namespace HoiChess

open Chess Rules

/-! ## The table of the values of pieces -/

theorem Chess.pieceOfCode_eq_none_iff (n : Nat) : pieceOfCode n = none ↔ 6 ≤ n := by
  match n with
  | 0 | 1 | 2 | 3 | 4 | 5 => decide
  | n + 6 => exact iff_of_true rfl (by omega)

namespace Chess.Move

variable (m : Move)

/-- `ptype()` as the number that it is. -/
def pieceIndex : Nat := if m.hasFlag movePromotion then 0 else ((m.mov >>> 12) &&& 0x7#32).toNat

/-- `promote_to()` as the number that it is. -/
def promoteIndex : Nat := ((m.mov >>> 12) &&& 0x7#32).toNat

/-- `cap_ptype()` as the number that it is. -/
def capIndex : Nat := ((m.mov >>> 15) &&& 0x7#32).toNat

theorem ptype_eq : m.ptype = pieceOfCode m.pieceIndex := by
  unfold ptype pieceIndex
  split <;> rfl

theorem capPtype_eq : m.capPtype = pieceOfCode m.capIndex := rfl

/-- The indices with which a capture or a promotion is looked up in `mat_values`. -/
def captureReads : List Nat :=
  [m.pieceIndex, m.capIndex] ++ if m.isPromotion then [m.promoteIndex] else []

end Chess.Move

namespace Node

variable (node : Node)

/-- **The indices into `mat_values`** that `score_moves()` uses for a move of the list. -/
def tableReads (mov : Move) : List Nat :=
  if node.type = .root then []
  else if 0 < node.pvline.moves.length ∧ mov = node.pvline.head then []
  else if mov = node.hashmv then []
  else if mov.isCapture || mov.isPromotion || mov.isEnpassant then mov.captureReads
  else []

theorem matValue_congr {n : Nat} (h : n < 6) (beyond beyond' : BitVec 32) :
    matValue beyond (pieceOfCode n) = matValue beyond' (pieceOfCode n) := by
  cases hp : pieceOfCode n with
  | none => exact absurd ((pieceOfCode_eq_none_iff n).mp hp) (by omega)
  | some p => rfl

theorem captureScore_congr {mov : Move} (h : ∀ i ∈ mov.captureReads, i < 6) (beyond beyond' : BitVec 32) :
    captureScore beyond mov = captureScore beyond' mov := by
  have hpiece : mov.pieceIndex < 6 := h _ (by simp [Move.captureReads])
  have hcap : mov.capIndex < 6 := h _ (by simp [Move.captureReads])
  have hpromote : (if mov.isPromotion then matValue beyond mov.promoteTo else 0) =
      if mov.isPromotion then matValue beyond' mov.promoteTo else 0 := by
    split
    · rename_i hp
      have hmem : mov.promoteIndex ∈ mov.captureReads := by
        rw [Move.captureReads, if_pos hp]
        exact List.mem_append_right _ List.mem_cons_self
      exact matValue_congr (h _ hmem) beyond beyond'
    · rfl
  unfold captureScore
  simp only [hpromote]
  rw [mov.ptype_eq, mov.capPtype_eq, matValue_congr hpiece beyond beyond',
    matValue_congr hcap beyond beyond']

/-- **What lies behind the table has no influence** on a score that is read within it. -/
theorem moveScore_congr {mov : Move} (htype : node.type ≠ .root) (h : ∀ i ∈ node.tableReads mov, i < 6)
    (beyond beyond' : BitVec 32) (history : PerColor HistoryTable) :
    node.moveScore beyond history mov = node.moveScore beyond' history mov := by
  unfold tableReads at h
  unfold moveScore
  rw [if_neg htype] at h
  split
  · rfl
  · rename_i hpv
    rw [if_neg hpv] at h
    split
    · rfl
    · rename_i hhash
      rw [if_neg hhash] at h
      split
      · rename_i hcap
        rw [if_pos hcap] at h
        exact captureScore_congr h beyond beyond'
      · rfl

/-- A move that is scored within the table is one that `pick()` takes. -/
theorem lt_moveScore_of_reads {mov : Move} (htype : node.type ≠ .root) (hmov : mov.Proper)
    (h : ∀ i ∈ node.tableReads mov, i < 6) (beyond : BitVec 32) (history : PerColor HistoryTable) :
    -infty < node.moveScore beyond history mov := by
  rw [node.moveScore_congr htype h beyond 0]
  exact node.lt_moveScore history hmov fun _ => by decide

/-- The reads for a move of the rules. -/
theorem captureReads_encode_iff (ply : Ply) :
    (∀ i ∈ ply.encode.captureReads, i < 6) ↔ ply.captured ≠ none := by
  have hin : ∀ n p, pieceOfCode n = some p → n < 6 := by
    intro n p hp
    by_contra hn
    rw [(pieceOfCode_eq_none_iff n).mpr (by omega)] at hp
    cases hp
  have hpiece : ply.encode.pieceIndex < 6 :=
    hin _ _ ((ply.encode.ptype_eq).symm.trans ply.ptype_encode)
  have hpromote : ply.encode.promoteIndex < 6 := hin _ _ ply.promoteTo_encode
  have hcap : ply.encode.capIndex < 6 ↔ ply.captured ≠ none := by
    rw [← ply.capPtype_encode, ply.encode.capPtype_eq, ne_eq, pieceOfCode_eq_none_iff, not_le]
  unfold Move.captureReads
  rw [← hcap]
  constructor
  · intro h
    exact h _ (by simp)
  · intro h
    split <;> simp [hpiece, hpromote, h]

variable [Build] {b : Board}

/-- **When scoring a move stays within `mat_values`**: for all moves but the promotions that
capture nothing, and for those when they need no table. -/
theorem tableReads_in_range_iff (h : Reached b) {allpromo : Bool} {mov : Move}
    (hmov : mov ∈ (b.generateMoves allpromo .empty).moves ∨
      mov ∈ (b.generateCaptures allpromo .empty).moves ∨ mov ∈ (b.generateEscapes .empty).moves) :
    (∀ i ∈ node.tableReads mov, i < 6) ↔
      node.type = .root ∨ (0 < node.pvline.moves.length ∧ mov = node.pvline.head) ∨
        mov = node.hashmv ∨ ¬(mov.isPromotion = true ∧ mov.isCapture = false) := by
  have hlist : b.Lists mov := by
    rcases hmov with hmov | hmov | hmov
    · exact h.sound.lists_generateMoves hmov
    · exact h.sound.lists_generateCaptures hmov
    · exact h.sound.lists_generateEscapes hmov
  obtain ⟨ply, rfl, _⟩ := hlist
  have hreads := captureReads_encode_iff ply
  have hkinds : (ply.encode.isCapture || ply.encode.isPromotion || ply.encode.isEnpassant) = true ∧
      ply.captured = none ↔ ply.encode.isPromotion = true ∧ ply.encode.isCapture = false := by
    rw [ply.isCapture_encode, ply.isPromotion_encode, ply.isEnpassant_encode]
    rcases ply with ⟨_, _, _, _ | _⟩ | ⟨_, _, _, _ | _⟩ | _ | _ <;>
      simp [Ply.captured, Ply.isPromote, Ply.isEp]
  unfold tableReads
  by_cases hroot : node.type = .root
  · simp [hroot]
  by_cases hpv : 0 < node.pvline.moves.length ∧ ply.encode = node.pvline.head
  · simp [hpv]
  by_cases hhash : ply.encode = node.hashmv
  · simp [hhash]
  rw [if_neg hroot, if_neg hpv, if_neg hhash, ← hkinds, or_iff_right hroot, or_iff_right hpv,
    or_iff_right hhash]
  split
  · rename_i hcap
    rw [hreads, and_iff_right hcap]
  · rename_i hcap
    exact iff_of_true (fun i hi => absurd hi List.not_mem_nil) fun hboth => hcap hboth.1

/-- 1. a4 b5 2. ab a6 3. ba Nc6 4. a7 Rb8, and the pawn may step to a8. -/
def pawnOnSeventh : List Ply :=
  [.move 8 24 .pawn none, .move 49 33 .pawn none, .move 24 33 .pawn (some .pawn),
    .move 48 40 .pawn none, .move 33 40 .pawn (some .pawn), .move 57 42 .knight none,
    .move 40 48 .pawn none, .move 56 57 .rook none]

/-- The node of a full-width search that knows no best move yet. -/
def plain (b : Board) : Node := { ofBoard b with type := .fullwidth }

omit [Build] in
/-- The step to a8 reads the value of the captured piece behind the table. -/
theorem tableReads_seven : ∃ b, @Reached sampleBuild b ∧
    ∃ mov ∈ (@Board.generateMoves sampleBuild b false .empty).moves,
      7 ∈ (plain b).tableReads mov := by
  let _ := sampleBuild
  obtain ⟨b, hb, hsim, hp⟩ := reached_line (l := pawnOnSeventh) (by decide +kernel)
  refine ⟨b, hb, (Ply.promote 48 56 .queen none).encode, ?_, ?_⟩
  · exact (hsim.mem_generateMoves hp.sane hp.materialOk false _).mpr
      ⟨_, rfl, by decide +kernel, List.mem_cons_self⟩
  · have htype : (plain b).type ≠ .root := fun h => NodeType.noConfusion h
    have hpv : ¬(0 < (plain b).pvline.moves.length ∧
        (Ply.promote 48 56 .queen none).encode = (plain b).pvline.head) :=
      fun h => absurd h.1 (lt_irrefl 0)
    have hhash : (Ply.promote 48 56 .queen none).encode ≠ (plain b).hashmv := by
      show (Ply.promote 48 56 .queen none).encode ≠ Move.noMove
      decide
    have hkind : (plain b).tableReads (Ply.promote 48 56 .queen none).encode =
        (Ply.promote 48 56 .queen none).encode.captureReads := by
      rw [tableReads, if_neg htype, if_neg hpv, if_neg hhash, if_pos (by decide)]
    rw [hkind]
    decide

omit [Build] in
/-- The step of the king's pawn is scored without the table. -/
theorem tableReads_kingsPawn : ∃ b, @Reached sampleBuild b ∧
    ∃ mov ∈ (@Board.generateMoves sampleBuild b false .empty).moves,
      ((∀ i ∈ (plain b).tableReads mov, i < 6) ↔
        (plain b).type = .root ∨
          (0 < (plain b).pvline.moves.length ∧ mov = (plain b).pvline.head) ∨
          mov = (plain b).hashmv ∨ ¬(mov.isPromotion = true ∧ mov.isCapture = false)) := by
  let _ := sampleBuild
  obtain ⟨b, hb, hsim, hp⟩ := reached_line (l := []) trivial
  have hmem : (Ply.move 12 28 .pawn none).encode ∈ (b.generateMoves false .empty).moves :=
    (hsim.mem_generateMoves hp.sane hp.materialOk false _).mpr
      ⟨_, rfl, by decide +kernel, trivial⟩
  exact ⟨b, hb, _, hmem, (plain b).tableReads_in_range_iff hb (Or.inl hmem)⟩

/-! ## The best of the remaining moves -/

omit [Build] in
/-- The loop of `pick()` finds an entry with the greatest score above the given one. -/
theorem pickLoop_best {l : List (Move × Int)} {i n : Nat} {score : Int} {m : Option Nat}
    (h : pickLoop l i score m = some n) : (m = some n ∧ ∀ e ∈ l, e.2 ≤ score) ∨
      ∃ e, i ≤ n ∧ l[n - i]? = some e ∧ score < e.2 ∧ ∀ e' ∈ l, e'.2 ≤ e.2 := by
  induction l generalizing i score m with
  | nil => exact .inl ⟨h, List.forall_mem_nil _⟩
  | cons e l ih =>
    rw [pickLoop] at h
    split at h
    · rename_i hgt
      right
      rcases ih h with ⟨hn, hall⟩ | ⟨e', hle, hget, hlt, hall⟩
      · obtain rfl := Option.some.inj hn
        refine ⟨e, le_refl _, by simp, hgt, ?_⟩
        exact List.forall_mem_cons.mpr ⟨le_refl _, hall⟩
      · refine ⟨e', by omega, ?_, by omega, List.forall_mem_cons.mpr ⟨hlt.le, hall⟩⟩
        rw [show n - i = n - (i + 1) + 1 by omega, List.getElem?_cons_succ]
        exact hget
    · rename_i hle
      rcases ih h with ⟨hn, hall⟩ | ⟨e', hle', hget, hlt, hall⟩
      · exact .inl ⟨hn, List.forall_mem_cons.mpr ⟨not_lt.mp hle, hall⟩⟩
      · refine .inr ⟨e', by omega, ?_, hlt, List.forall_mem_cons.mpr ⟨by omega, hall⟩⟩
        rw [show n - i = n - (i + 1) + 1 by omega, List.getElem?_cons_succ]
        exact hget

/-- The score of the move that was picked last: `get_score(current_move_no)`. -/
def currentScore : Int := ((node.movelist.entries[node.nextMoveNo - 1]?).map Prod.snd).getD (-infty)

omit [Build] in
/-- **What `pick()` does**: it takes an entry with the greatest score. -/
theorem pick_spec {node : Node} (h : node.pick.2 ≠ .noMove) :
    node.remaining.Perm ((node.pick.2, node.pick.1.currentScore) :: node.pick.1.remaining) ∧
      (∀ e ∈ node.remaining, e.2 ≤ node.pick.1.currentScore) ∧
      node.pick.1.nextMoveNo = node.nextMoveNo + 1 := by
  cases hloop : pickLoop node.remaining node.nextMoveNo (-infty) none with
  | none =>
    refine absurd ?_ h
    unfold remaining at hloop
    rw [pick, hloop]
  | some m =>
    obtain ⟨hm, movelist, hpick, _, hcurrent, hrest⟩ := node.pick_of_some hloop
    obtain ⟨e, hle, hget, _, hbest⟩ := (pickLoop_best hloop).resolve_left (by simp)
    have he : e = node.movelist.entries[m] := by
      rw [remaining, List.getElem?_drop, Nat.add_sub_cancel' hle, List.getElem?_eq_getElem hm] at hget
      exact (Option.some.inj hget).symm
    have hscore : node.pick.1.currentScore = node.movelist.entries[m].2 := by
      rw [hpick]
      show ((movelist.entries[node.nextMoveNo]?).map Prod.snd).getD (-infty) = _
      rw [hcurrent]
      rfl
    rw [hscore]
    refine ⟨?_, he ▸ hbest, by rw [hpick]⟩
    rw [hpick]
    exact hrest

end Node

end HoiChess
