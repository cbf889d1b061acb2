import HoiChess.Chess.Escapes

/-!
# The moves that the generator lists

Whatever the board is, consistent or not, the generators list moves of known men, none of them
`NO_MOVE`, with the score 0: `Fresh` is kept by every loop of `generate_moves`,
`generate_captures` and `generate_escapes`.
-/

namespace HoiChess.Chess

open Rules

/-- The moves that `pick()` hands out: they have a man, differ from `NO_MOVE`, and what they may
promote to is a man. -/
structure Move.Proper (mov : Move) : Prop where
  ptype : ∃ p, mov.ptype = some p
  ne_noMove : mov ≠ .noMove
  promoteTo : ∃ p, mov.promoteTo = some p

/-- The factories make proper moves of known men. -/
theorem Move.proper_pack (src dst : Square) (p : Piece) (c : Option Piece) {fl : BitVec 16}
    (hfl : fl.toNat < 2 ^ 14) (hne : fl ≠ 0#16) : (Move.pack (some src) (some dst) (some p) c fl).Proper := by
  refine ⟨?_, fun h => hne ?_, ⟨p, Move.promoteTo_pack _ _ _ _ _ hfl⟩⟩
  · rw [Move.ptype_pack _ _ _ _ _ hfl]
    split
    · exact ⟨_, rfl⟩
    · exact ⟨_, rfl⟩
  · rw [← Move.flags_pack (some p) c fl (some src) (some dst) hfl, h]
    rfl

/-- The moves of a list are proper and have not been scored yet. -/
def Movelist.Fresh (ml : Movelist) : Prop := ∀ e ∈ ml.entries, e.1.Proper ∧ e.2 = 0

namespace Movelist.Fresh

variable {ml : Movelist}

theorem empty : Movelist.empty.Fresh := List.forall_mem_nil _

theorem add (h : ml.Fresh) {mov : Move} (hmov : mov.Proper) : (ml.add mov).Fresh := by
  unfold Movelist.add
  split
  · exact List.forall_mem_append.mpr ⟨h, List.forall_mem_singleton.mpr ⟨hmov, rfl⟩⟩
  · exact h

theorem ite {p : Prop} [Decidable p] {ml' : Movelist} (h : ml.Fresh) (h' : ml'.Fresh) :
    (if p then ml else ml').Fresh := by
  split
  · exact h
  · exact h'

theorem addPromotions (h : ml.Fresh) {mk : Piece → Move} (hmk : ∀ p, (mk p).Proper)
    (allpromo : Bool) : (Board.addPromotions mk allpromo ml).Fresh := by
  unfold Board.addPromotions
  exact ite (((h.add (hmk _)).add (hmk _)).add (hmk _) |>.add (hmk _)) ((h.add (hmk _)).add (hmk _))

theorem filterBy (h : ml.Fresh) (legal : Move → Bool) : (ml.filterBy legal).Fresh :=
  fun e he => h e (SwapFilter.mem_run.mp he).1

theorem proper (h : ml.Fresh) {mov : Move} (hmov : mov ∈ ml.moves) : mov.Proper := by
  obtain ⟨e, he, rfl⟩ := List.mem_map.mp hmov
  exact (h e he).1

section Loops

variable [k : Build]

theorem forSquares {bb : Bitboard} {body : Square → Movelist → Movelist} (h : ml.Fresh)
    (hbody : ∀ sq, WordSet.mem bb sq = true → ∀ {ml : Movelist}, ml.Fresh → (body sq ml).Fresh) :
    (Chess.forSquares bb body ml).Fresh := by
  have hall : ∀ l : List Square, (∀ sq ∈ l, WordSet.mem bb sq = true) → ∀ {ml : Movelist}, ml.Fresh →
      (l.foldl (fun ml sq => body sq ml) ml).Fresh := by
    intro l hl
    induction l with
    | nil => exact fun h => h
    | cons sq l ih =>
      obtain ⟨hsq, hrest⟩ := List.forall_mem_cons.mp hl
      exact fun h => ih hrest (hbody sq hsq h)
  exact hall (squares bb) (fun sq hsq => (mem_squares bb sq).mp hsq) h

variable {b : Board}

theorem addTargets (h : ml.Fresh) {src : Square} {targets : Bitboard} {mk : Square → Square → Move}
    (hmk : ∀ src dst, (mk src dst).Proper) : (Board.addTargets src targets mk ml).Fresh :=
  h.forSquares fun _ _ _ h => h.add (hmk _ _)

theorem pieceLoop (h : ml.Fresh) {p : Piece} {mask : Bitboard} {mk : Square → Square → Move}
    (hmk : ∀ src dst, (mk src dst).Proper) : (b.pieceLoop p mask mk ml).Fresh :=
  h.forSquares fun _ _ _ h => h.addTargets hmk

theorem kingMoves (h : ml.Fresh) {mask : Bitboard} {mk : Square → Square → Move}
    (hmk : ∀ src dst, (mk src dst).Proper) : (b.kingMoves mask mk ml).Fresh := by
  unfold Board.kingMoves
  split
  · exact h
  · exact h.addTargets hmk

theorem generateCaptures (h : ml.Fresh) (allpromo : Bool) : (b.generateCaptures allpromo ml).Fresh := by
  have hcapture : ∀ p src dst, (Move.capture src dst (some p) (b.pieceAt dst)).Proper :=
    fun p src dst => Move.proper_pack src dst p _ (by decide) (by decide)
  have hpromo : (b.promotionLoop allpromo ml).Fresh := by
    refine h.forSquares fun src _ _ h => ?_
    refine Fresh.forSquares (h.forSquares fun dst _ _ h => ?_) fun dst _ _ h => ?_
    · exact h.addPromotions (fun p => Move.proper_pack src dst p _ (by decide) (by decide)) allpromo
    · exact h.addPromotions (fun p => Move.proper_pack src dst p _ (by decide) (by decide)) allpromo
  have hpawns : ∀ {ml : Movelist}, ml.Fresh → (b.pawnCaptureLoop ml).Fresh := by
    refine fun h => h.forSquares fun src _ _ h => h.forSquares fun dst _ _ h => h.add ?_
    split
    · exact Move.proper_pack src dst .pawn _ (by decide) (by decide)
    · exact hcapture .pawn src dst
  exact (((((hpawns hpromo).pieceLoop (hcapture _)).pieceLoop (hcapture _)).pieceLoop
    (hcapture _)).pieceLoop (hcapture _)).kingMoves (hcapture _)

theorem generateMoves (h : ml.Fresh) (allpromo : Bool) : (b.generateMoves allpromo ml).Fresh := by
  have hnormal : ∀ p src dst, (Move.normal src dst (some p)).Proper :=
    fun p src dst => Move.proper_pack src dst p _ (by decide) (by decide)
  have hcastle : ∀ {ml : Movelist} (f : CastleFlag), ml.Fresh → (b.addCastle f ml).Fresh :=
    fun f h => ite (h.add (Move.proper_pack _ _ .king _ (by decide) (by decide))) h
  have hcastling : ∀ {ml : Movelist}, ml.Fresh → (b.generateCastling ml).Fresh :=
    fun h => ite h (ite (hcastle _ (hcastle _ h)) (hcastle _ (hcastle _ h)))
  have hpush : ∀ {ml : Movelist}, ml.Fresh → (b.pushLoop ml).Fresh :=
    fun h => h.forSquares fun src _ _ h => h.forSquares fun dst _ _ h => h.add (hnormal .pawn src dst)
  exact (((((hpush (hcastling (h.generateCaptures allpromo))).pieceLoop (hnormal _)).pieceLoop
    (hnormal _)).pieceLoop (hnormal _)).pieceLoop (hnormal _)).kingMoves (hnormal _)

omit k in
theorem exists_pieceAt {c : Color} {p : Piece} {sq : Square} (h : WordSet.mem (b.pos c p) sq = true) :
    ∃ q, b.pieceAt sq = some q := by
  refine Option.isSome_iff_exists.mp ?_
  unfold Board.pieceAt
  rw [List.find?_isSome]
  refine ⟨p, by cases p <;> simp, ?_⟩
  show WordSet.mem (b.pos .white p ||| b.pos .black p) sq = true
  rw [WordSet.mem_or]
  cases c
  · rw [h, Bool.true_or]
  · rw [h, Bool.or_true]

omit k in
/-- An attacker stands on its square. -/
theorem exists_pieceAt_of_attackers {c : Color} {sq src : Square}
    (h : WordSet.mem (b.attackers sq c) src = true) : ∃ q, b.pieceAt src = some q := by
  simp only [Board.attackers, WordSet.mem_or, WordSet.mem_and, Bool.or_eq_true, Bool.and_eq_true] at h
  obtain ((((h | h) | h) | h) | h) | h := h <;> exact exists_pieceAt h.2

omit k in
theorem addMove (h : ml.Fresh) {src : Square} (hsrc : ∃ p, b.pieceAt src = some p) (dst : Square)
    (allpromo : Bool) : (b.addMove src dst allpromo ml).Fresh := by
  obtain ⟨p, hp⟩ := hsrc
  unfold Board.addMove
  simp only [hp]
  refine ite (h.add ?_) (ite (ite ?_ (h.add ?_)) (ite ?_ (h.add ?_)))
  · exact Move.proper_pack _ _ .pawn _ (by decide) (by decide)
  · exact h.addPromotions (fun q => Move.proper_pack _ _ q _ (by decide) (by decide)) allpromo
  · exact Move.proper_pack _ _ p _ (by decide) (by decide)
  · exact h.addPromotions (fun q => Move.proper_pack _ _ q _ (by decide) (by decide)) allpromo
  · exact Move.proper_pack _ _ p _ (by decide) (by decide)

omit k in
/-- A man that can step between stands on its square. -/
theorem exists_pieceAt_of_blockers {dst src : Square} (h : WordSet.mem (b.blockers dst) src = true) :
    ∃ q, b.pieceAt src = some q := by
  have hmen : WordSet.mem (b.attackers dst b.side &&& ~~~b.pos b.side .pawn &&& ~~~b.pos b.side .king) src
      = true → ∃ q, b.pieceAt src = some q := fun h => by
    rw [WordSet.mem_and, WordSet.mem_and, Bool.and_eq_true, Bool.and_eq_true] at h
    exact exists_pieceAt_of_attackers h.1.1
  have hpawn : ∀ {bb : Bitboard} {sq : Square}, Bitboard.testbit (b.pos b.side .pawn) sq = true →
      (WordSet.mem bb src = true → ∃ q, b.pieceAt src = some q) →
      WordSet.mem (Bitboard.setbit bb sq) src = true → ∃ q, b.pieceAt src = some q := by
    intro bb sq hsq hbb h
    rw [WordSet.mem_insert, Bool.or_eq_true, decide_eq_true_eq] at h
    rcases h with h | rfl
    · exact hbb h
    · exact exists_pieceAt hsq
  unfold Board.blockers at h
  simp only at h
  split at h <;> split at h
  · exact hpawn (And.right ‹_›) hmen h
  · split at h
    · exact hpawn (And.right (And.right ‹_›)) hmen h
    · exact hmen h
  · exact hpawn (And.right ‹_›) hmen h
  · split at h
    · exact hpawn (And.right (And.right ‹_›)) hmen h
    · exact hmen h

theorem generateEscapes (h : ml.Fresh) : (b.generateEscapes ml).Fresh := by
  have hking : ∀ {king : Square} {ml : Movelist}, ml.Fresh → (b.kingEscapes king ml).Fresh := by
    refine fun h => h.forSquares fun dst _ _ h => ite h (ite (h.add ?_) (h.add ?_))
    · exact Move.proper_pack _ _ .king _ (by decide) (by decide)
    · exact Move.proper_pack _ _ .king _ (by decide) (by decide)
  have hchecker : ∀ {checker : Square} {ml : Movelist}, ml.Fresh →
      (b.checkerCaptures checker ml).Fresh := by
    refine fun h => h.forSquares fun src hsrc _ h => h.addMove ?_ _ false
    rw [WordSet.mem_and, Bool.and_eq_true] at hsrc
    exact exists_pieceAt_of_attackers hsrc.1
  have hep : ∀ {checker : Square} {ml : Movelist}, ml.Fresh → (b.checkerEnpassant checker ml).Fresh := by
    intro checker ml h
    unfold Board.checkerEnpassant
    refine ite ?_ h
    split
    · exact h
    · exact h.forSquares fun src _ _ h => h.add (Move.proper_pack _ _ .pawn _ (by decide) (by decide))
  have hbetween : ∀ {checker king : Square} {ml : Movelist}, ml.Fresh →
      (b.interpositions checker king ml).Fresh :=
    fun h => h.forSquares fun dst _ _ h => h.forSquares fun src hsrc _ h =>
      ite h (h.addMove (exists_pieceAt_of_blockers hsrc) dst false)
  unfold Board.generateEscapes
  split
  · exact h
  refine ite (hking h) ?_
  split
  · exact hking h
  · exact ite (hep (hchecker (hking h))) (hbetween (hep (hchecker (hking h))))

end Loops

end Movelist.Fresh

end HoiChess.Chess
