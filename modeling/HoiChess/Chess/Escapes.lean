import HoiChess.Chess.Evasion
import HoiChess.Chess.Exact

/-!
# Check evasions

`generate_escapes` lists, for a side that is in check, the king moves to
squares that are not attacked, the captures of the checking man and the moves
onto its line.  Its loops append the words of `escapePlies`
(`generateEscapes_eq`).  All of these are pseudo-legal
(`Sim.pseudo_of_mem_escapePlies`) and every legal move is among them
(`Sim.mem_escapePlies_of_legal`), so after `filter_illegal` the list is that
of the plain generator (`Sim.mem_filterIllegal_generateEscapes`).
-/

namespace HoiChess.Chess

open WordSet Grid Rules

namespace Board

section Generators

variable [k : Build] (b : Board)

/-- `add_move`: all about the move is found out here. -/
def addMove (src dst : Square) (allpromo : Bool) (ml : Movelist) : Movelist :=
  let ptype := b.pieceAt src
  let promotes := ptype = some .pawn ∧
    (b.side = .white ∧ rnk dst = rank8 ∨ b.side = .black ∧ rnk dst = rank1)
  if ptype = some .pawn ∧ some dst = b.epsq then ml.add (.enpassant src dst)
  else if Bitboard.testbit (b.getPieces b.side.xside) dst then
    if promotes then
      addPromotions (fun p => .promotionCapture src dst (some p) (b.pieceAt dst)) allpromo ml
    else ml.add (.capture src dst ptype (b.pieceAt dst))
  else
    if promotes then addPromotions (fun p => .promotion src dst (some p)) allpromo ml
    else ml.add (.normal src dst ptype)

/-- The men that can be moved onto the empty square `dst`, pawns by their advances. -/
def blockers (dst : Square) : Bitboard :=
  let bb := b.attackers dst b.side &&& ~~~b.pos b.side .pawn &&& ~~~b.pos b.side .king
  let pawns := b.pos b.side .pawn
  if b.side = .white then
    if rnk dst ≠ rank1 ∧ Bitboard.testbit pawns (dst - 8) then Bitboard.setbit bb (dst - 8)
    else if rnk dst = rank4 ∧ !Bitboard.testbit b.occupied (dst - 8) ∧
        Bitboard.testbit pawns (dst - 16) then Bitboard.setbit bb (dst - 16)
    else bb
  else
    if rnk dst ≠ rank8 ∧ Bitboard.testbit pawns (dst + 8) then Bitboard.setbit bb (dst + 8)
    else if rnk dst = rank5 ∧ !Bitboard.testbit b.occupied (dst + 8) ∧
        Bitboard.testbit pawns (dst + 16) then Bitboard.setbit bb (dst + 16)
    else bb

/-- The first loop: the king leaves its square. -/
def kingEscapes (king : Square) : Movelist → Movelist :=
  forSquares (kingAttacks king &&& ~~~b.getPieces b.side) (fun dst ml =>
    if b.isAttacked dst b.side.xside then ml
    else if Bitboard.testbit (b.getPieces b.side.xside) dst then
      ml.add (.capture king dst (some .king) (b.pieceAt dst))
    else ml.add (.normal king dst (some .king)))

/-- The second loop: the checking man is captured, though not by the king. -/
def checkerCaptures (checker : Square) : Movelist → Movelist :=
  forSquares (b.attackers checker b.side &&& ~~~b.pos b.side .king) (fun src =>
    b.addMove src checker false)

/-- The third loop: the checking pawn is captured en passant. -/
def checkerEnpassant (checker : Square) (ml : Movelist) : Movelist :=
  if b.getEppawn = some checker then
    match b.epsq with
    | none => ml
    | some ep => forSquares (b.pawnCaptures ep b.side.xside &&& b.pos b.side .pawn)
        (fun src ml => ml.add (.enpassant src ep)) ml
  else ml

/-- The last loop: a man steps between the checking man and the king. -/
def interpositions (checker king : Square) : Movelist → Movelist :=
  forSquares (rayBb checker king) (fun dst => forSquares (b.blockers dst) (fun src ml =>
    if Bitboard.any (b.occupied &&& rayBb src dst) then ml else b.addMove src dst false ml))

/-- Only called for a side in check: there is a king and a checking man. -/
def generateEscapes (ml : Movelist) : Movelist :=
  match b.getKing b.side with
  | none => ml
  | some king =>
    let checkers := b.attackers king b.side.xside
    let ml := b.kingEscapes king ml
    if 1 < Bitboard.popcnt checkers then ml
    else
      match k.firstbit.pick checkers with
      | none => ml
      | some checker =>
        let ptype := b.pieceAt checker
        let ml := b.checkerCaptures checker ml
        let ml := b.checkerEnpassant checker ml
        if ptype = some .pawn ∨ ptype = some .knight then ml
        else b.interpositions checker king ml

end Generators

/-! ## The plies behind the loops -/

section Plies

variable [k : Build] (b : Board)

/-- What a move to `dst` captures there. -/
def capAt (dst : Square) : Option Piece :=
  if Bitboard.testbit (b.getPieces b.side.xside) dst then b.pieceAt dst else none

/-- The plies of `addMove` with `allpromo` off. -/
def movePlies (src dst : Square) : List Ply :=
  match b.pieceAt src with
  | none => []
  | some p =>
    if p = .pawn ∧ some dst = b.epsq then [.enpassant src dst]
    else if p = .pawn ∧ rnk dst = lastRank b.side then
      (promotionChoice false).map (fun q => .promote src dst q (b.capAt dst))
    else [.move src dst p (b.capAt dst)]

def kingEscapePlies (king : Square) : List Ply :=
  (squares (kingAttacks king &&& ~~~b.getPieces b.side)).flatMap fun dst =>
    if b.isAttacked dst b.side.xside then [] else [.move king dst .king (b.capAt dst)]

def checkerCapturePlies (checker : Square) : List Ply :=
  (squares (b.attackers checker b.side &&& ~~~b.pos b.side .king)).flatMap fun src =>
    b.movePlies src checker

def checkerEnpassantPlies (checker : Square) : List Ply :=
  if b.getEppawn = some checker then
    b.epsq.toList.flatMap fun ep =>
      (squares (b.pawnCaptures ep b.side.xside &&& b.pos b.side .pawn)).map fun src =>
        .enpassant src ep
  else []

def interpositionPlies (checker king : Square) : List Ply :=
  (squares (rayBb checker king)).flatMap fun dst =>
    (squares (b.blockers dst)).flatMap fun src =>
      if Bitboard.any (b.occupied &&& rayBb src dst) then [] else b.movePlies src dst

/-- The plies that answer a single checking man by other means than a king move. -/
def answerPlies (checker king : Square) : List Ply :=
  b.checkerCapturePlies checker ++ b.checkerEnpassantPlies checker ++
    if b.pieceAt checker = some .pawn ∨ b.pieceAt checker = some .knight then []
    else b.interpositionPlies checker king

def escapePlies : List Ply :=
  match b.getKing b.side with
  | none => []
  | some king =>
    b.kingEscapePlies king ++
      if 1 < Bitboard.popcnt (b.attackers king b.side.xside) then []
      else (k.firstbit.pick (b.attackers king b.side.xside)).toList.flatMap fun checker =>
        b.answerPlies checker king

end Plies

end Board

/-! ## The loops append the plies -/

theorem capAt_of_mem {b : Board} {dst : Square} (hd : mem (b.getPieces b.side.xside) dst = true) :
    b.capAt dst = b.pieceAt dst := if_pos hd

theorem capAt_of_not_mem {b : Board} {dst : Square} (hd : ¬ mem (b.getPieces b.side.xside) dst = true) :
    b.capAt dst = none := if_neg hd

theorem promotes_eq_lastRank (c : Color) (dst : Square) :
    (c = .white ∧ rnk dst = rank8 ∨ c = .black ∧ rnk dst = rank1) ↔ rnk dst = lastRank c := by
  cases c <;> simp [lastRank]

section Loops

variable [k : Build] {b : Board} {man : Placement}

/-- **`add_move` adds the words of `movePlies`.** -/
theorem addMove_eq (h : Consistent b man) {src : Square} (hs : man src ≠ none) (dst : Square)
    (ml : Movelist) :
    b.addMove src dst false ml = ml.addAll ((b.movePlies src dst).map Ply.encode) := by
  obtain ⟨p, hp⟩ : ∃ p, b.pieceAt src = some p := by
    rw [h.pieceAt_eq]
    cases hm : man src with
    | none => exact absurd hm hs
    | some m => exact ⟨m.2, rfl⟩
  unfold Board.addMove Board.movePlies
  simp only [hp, Option.some.injEq, promotes_eq_lastRank]
  by_cases hep : p = .pawn ∧ some dst = b.epsq
  · rw [if_pos hep, if_pos hep]
    rfl
  rw [if_neg hep, if_neg hep]
  by_cases hd : mem (b.getPieces b.side.xside) dst = true
  · obtain ⟨q, hq, _⟩ := pieceAt_of_mem h hd
    rw [if_pos hd, capAt_of_mem hd, hq]
    split
    · exact addPromotions_eq _ (fun p => .promote src dst p (some q)) (fun _ => rfl) _ _
    · rfl
  · rw [if_neg hd, capAt_of_not_mem hd]
    split
    · exact addPromotions_eq _ (fun p => .promote src dst p none) (fun _ => rfl) _ _
    · rfl

theorem kingEscapes_eq (h : Consistent b man) (king : Square) (ml : Movelist) :
    b.kingEscapes king ml = ml.addAll ((b.kingEscapePlies king).map Ply.encode) := by
  unfold Board.kingEscapes Board.kingEscapePlies
  rw [List.map_flatMap]
  apply forSquares_eq
  intro dst _ ml
  split
  · rfl
  · by_cases hd : mem (b.getPieces b.side.xside) dst = true
    · obtain ⟨q, hq, _⟩ := pieceAt_of_mem h hd
      rw [if_pos hd, capAt_of_mem hd, hq]
      rfl
    · rw [if_neg hd, capAt_of_not_mem hd]
      rfl

theorem ne_none_of_mem_attackers (h : Consistent b man) {c : Color} {src dst : Square}
    (hm : mem (b.attackers dst c) src = true) : man src ≠ none := by
  obtain ⟨p, hp, _⟩ := (mem_attackers h c src dst).mp hm
  rw [hp]
  exact Option.some_ne_none _

theorem checkerCaptures_eq (h : Consistent b man) (checker : Square) (ml : Movelist) :
    b.checkerCaptures checker ml = ml.addAll ((b.checkerCapturePlies checker).map Ply.encode) := by
  unfold Board.checkerCaptures Board.checkerCapturePlies
  rw [List.map_flatMap]
  apply forSquares_eq
  intro src hsrc ml
  rw [mem_and, Bool.and_eq_true] at hsrc
  exact addMove_eq h (ne_none_of_mem_attackers h hsrc.1) checker ml

theorem checkerEnpassant_eq (checker : Square) (ml : Movelist) :
    b.checkerEnpassant checker ml =
      ml.addAll ((b.checkerEnpassantPlies checker).map Ply.encode) := by
  unfold Board.checkerEnpassant Board.checkerEnpassantPlies
  split
  · cases b.epsq with
    | none => rfl
    | some ep =>
      simp only [Option.toList_some, List.flatMap_cons, List.flatMap_nil, List.append_nil]
      exact forSquares_add (f := fun src => Ply.enpassant src ep) (fun src _ => rfl) ml
  · rfl

end Loops

/-! ## Pawns that can advance onto a square -/

/-- The rank on which a double step ends. -/
def doubleRank : Color → Nat
  | .white => rank4
  | .black => rank5

theorem add_pawnDir_eq_iff {c : Color} {s t : Square} :
    s + Board.pawnDir c = t ↔ s = t - Board.pawnDir c := by
  simp only [Fin.ext_iff, Fin.val_add, Fin.val_sub]
  cases c
  · show (s.val + 8) % 64 = t.val ↔ s.val = (64 - 8 + t.val) % 64
    omega
  · show (s.val + 56) % 64 = t.val ↔ s.val = (64 - 56 + t.val) % 64
    omega

theorem sub_pawnDir_twice (c : Color) (dst : Square) :
    dst - (Board.pawnDir c + Board.pawnDir c) = dst - Board.pawnDir c - Board.pawnDir c := by
  revert c dst
  decide

theorem step_forward_iff (c : Color) (src dst : Square) :
    step src (forward c) = some dst ↔ rnk dst ≠ lastRank c.xside ∧ src = dst - Board.pawnDir c := by
  have hstep : ∀ (c : Color) (src : Square), step src (forward c) =
      if rnk src = lastRank c then none else some (src + Board.pawnDir c) := by decide
  have hrank : ∀ (c : Color) (dst : Square),
      rnk (dst - Board.pawnDir c) = lastRank c ↔ rnk dst = lastRank c.xside := by decide
  rw [hstep, Option.ite_none_left_eq_some, Option.some.injEq, add_pawnDir_eq_iff, ne_eq, ← hrank]
  constructor
  · rintro ⟨hr, rfl⟩
    exact ⟨hr, rfl⟩
  · rintro ⟨hr, rfl⟩
    exact ⟨hr, rfl⟩

theorem double_step_iff (c : Color) (src dst : Square) :
    (rnk src = pawnRank c ∧ Along src (forward c) 2 dst) ↔
      rnk dst = doubleRank c ∧ src = dst - (Board.pawnDir c + Board.pawnDir c) := by
  have key : ∀ (c : Color) (src dst : Square),
      (rnk src = pawnRank c ∧ step (src + Board.pawnDir c) (forward c) = some dst) ↔
        rnk dst = doubleRank c ∧ src = dst - (Board.pawnDir c + Board.pawnDir c) := by
    have hrank : ∀ (c : Color) (dst : Square),
        rnk (dst - (Board.pawnDir c + Board.pawnDir c)) = pawnRank c ∧
          rnk dst ≠ lastRank c.xside ↔ rnk dst = doubleRank c := by decide
    intro c src dst
    rw [step_forward_iff, add_pawnDir_eq_iff, ← sub_pawnDir_twice, ← hrank c dst]
    constructor
    · rintro ⟨hs, hd, rfl⟩
      exact ⟨⟨hs, hd⟩, rfl⟩
    · rintro ⟨⟨hs, hd⟩, rfl⟩
      exact ⟨hs, hd, rfl⟩
  rw [← key]
  refine and_congr_right fun hr => ?_
  have h1 : Along src (forward c) 1 (src + Board.pawnDir c) := by
    rw [← step_eq_some]
    exact step_forward c src (by rw [hr]; exact pawnRank_ne_lastRank c)
  rw [step_eq_some]
  exact ⟨fun h => h1.sub h, fun h => h1.trans h⟩

theorem double_step_middle (c : Color) (dst : Square) (h : rnk dst = doubleRank c) :
    rnk (dst - Board.pawnDir c) ≠ lastRank c.xside := by
  revert h
  revert c dst
  decide

theorem sub_pawnDir_inj {c : Color} {s t : Square} :
    s - Board.pawnDir c = t - Board.pawnDir c ↔ s = t := by
  constructor
  · intro h
    have hs : s - Board.pawnDir c + Board.pawnDir c = s := add_pawnDir_eq_iff.mpr rfl
    rw [← hs, h, add_pawnDir_eq_iff]
  · rintro rfl
    rfl

/-- Advances onto an empty square, looked at from the square. -/
theorem mem_pushes_back {man : Placement} {c : Color} {src dst : Square} (hd : man dst = none) :
    dst ∈ pushes man c src ↔
      (rnk dst ≠ lastRank c.xside ∧ src = dst - Board.pawnDir c) ∨
        (rnk dst = doubleRank c ∧ man (dst - Board.pawnDir c) = none ∧
          src = dst - (Board.pawnDir c + Board.pawnDir c)) := by
  rw [mem_pushes, ← step_eq_some, step_forward_iff, and_iff_left hd]
  refine or_congr Iff.rfl ?_
  rw [← and_assoc, double_step_iff]
  constructor
  · rintro ⟨⟨hr, hs⟩, _, u, hu, hn⟩
    rw [← step_eq_some, step_forward_iff, hs, sub_pawnDir_twice, sub_pawnDir_inj] at hu
    rw [← hu.2] at hn
    exact ⟨hr, hn, hs⟩
  · rintro ⟨hr, hn, hs⟩
    refine ⟨⟨hr, hs⟩, hd, dst - Board.pawnDir c, ?_, hn⟩
    rw [← step_eq_some, step_forward_iff, hs, sub_pawnDir_twice]
    exact ⟨double_step_middle c dst hr, rfl⟩

theorem blockers_eq (b : Board) (dst : Square) :
    b.blockers dst =
      let bb := b.attackers dst b.side &&& ~~~b.pos b.side .pawn &&& ~~~b.pos b.side .king
      let pawns := b.pos b.side .pawn
      let dir := Board.pawnDir b.side
      if rnk dst ≠ lastRank b.side.xside ∧ mem pawns (dst - dir) then insert bb (dst - dir)
      else if rnk dst = doubleRank b.side ∧ !mem b.occupied (dst - dir) ∧
          mem pawns (dst - (dir + dir)) then insert bb (dst - (dir + dir))
      else bb := by
  have h8 : dst + 8 = dst - 56 := by revert dst; decide
  have h16 : dst + 16 = dst - (56 + 56) := by revert dst; decide
  unfold Board.blockers
  cases b.side with
  | white => rfl
  | black =>
    simp only [reduceCtorEq, if_false, h8, h16]
    rfl

section Blockers

variable [k : Build] {b : Board} {man : Placement}

/-- **`blockers` finds the men that can be moved onto an empty square.** -/
theorem mem_blockers (h : Consistent b man) {dst : Square} (hd : man dst = none) (src : Square) :
    mem (b.blockers dst) src = true ↔
      (∃ p, p ≠ .pawn ∧ p ≠ .king ∧ man src = some (b.side, p) ∧ dst ∈ reach man b.side p src) ∨
        (man src = some (b.side, .pawn) ∧ dst ∈ pushes man b.side src) := by
  have hpieces : mem (b.attackers dst b.side &&& ~~~b.pos b.side .pawn &&& ~~~b.pos b.side .king)
      src = true ↔ ∃ p, p ≠ .pawn ∧ p ≠ .king ∧ man src = some (b.side, p) ∧
        dst ∈ reach man b.side p src := by
    simp only [mem_and, mem_not, Bool.and_eq_true, Bool.not_eq_true', ← Bool.not_eq_true,
      mem_attackers h, h.mem_pos]
    constructor
    · rintro ⟨⟨⟨p, hp, hr⟩, h1⟩, h2⟩
      exact ⟨p, fun e => h1 (e ▸ hp), fun e => h2 (e ▸ hp), hp, hr⟩
    · rintro ⟨p, h1, h2, hp, hr⟩
      refine ⟨⟨⟨p, hp, hr⟩, fun e => h1 ?_⟩, fun e => h2 ?_⟩
      · exact congrArg Prod.snd (Option.some.inj (hp.symm.trans e))
      · exact congrArg Prod.snd (Option.some.inj (hp.symm.trans e))
  have hfree : ∀ sq, (!mem b.occupied sq) = true ↔ man sq = none := by
    intro sq
    rw [h.occ_eq]
    cases man sq <;> simp
  rw [blockers_eq]
  simp only [hfree, h.mem_pos, mem_pushes_back hd]
  by_cases h1 : rnk dst ≠ lastRank b.side.xside ∧
      man (dst - Board.pawnDir b.side) = some (b.side, .pawn)
  · rw [if_pos h1, mem_insert, Bool.or_eq_true, hpieces, decide_eq_true_iff]
    refine or_congr Iff.rfl ?_
    constructor
    · rintro rfl
      exact ⟨h1.2, Or.inl ⟨h1.1, rfl⟩⟩
    · rintro ⟨_, ⟨_, hs⟩ | ⟨_, hn, _⟩⟩
      · exact hs.symm
      · rw [h1.2] at hn
        cases hn
  · rw [if_neg h1]
    split
    · rename_i h2
      rw [mem_insert, Bool.or_eq_true, hpieces, decide_eq_true_iff]
      refine or_congr Iff.rfl ?_
      constructor
      · rintro rfl
        exact ⟨h2.2.2, Or.inr ⟨h2.1, h2.2.1, rfl⟩⟩
      · rintro ⟨hm, ⟨hr, hs⟩ | ⟨_, _, hs⟩⟩
        · exact absurd ⟨hr, hs ▸ hm⟩ h1
        · exact hs.symm
    · rename_i h2
      rw [hpieces, or_iff_left]
      rintro ⟨hm, ⟨hr, hs⟩ | ⟨hr, hn, hs⟩⟩
      · exact h1 ⟨hr, hs ▸ hm⟩
      · exact h2 ⟨hr, hn, hs ▸ hm⟩

end Blockers

/-- A pawn advances over empty squares. -/
theorem push_clear {man : Placement} {c : Color} {src dst u : Square}
    (h : dst ∈ pushes man c src) (hu : Between src dst u) : man u = none := by
  have hd : ∀ j, 0 < j → Along src (forward c) j dst → ∃ i, 0 < i ∧ i < j ∧
      Along src (forward c) i u := by
    intro j hj ha
    exact (ha.between_iff (forward_unit c) hj).mp hu
  rcases mem_pushes.mp h with ⟨ha, _⟩ | ⟨_, ha, _, v, hv, hn⟩
  · obtain ⟨i, h0, h1, _⟩ := hd 1 (by decide) ha
    omega
  · obtain ⟨i, h0, h1, hi⟩ := hd 2 (by decide) ha
    obtain rfl : i = 1 := by omega
    rw [hi.unique hv]
    exact hn

/-! ## What the plies are -/

theorem movePlies_nodup (b : Board) (src dst : Square) : (b.movePlies src dst).Nodup := by
  unfold Board.movePlies
  cases b.pieceAt src with
  | none => exact List.nodup_nil
  | some p =>
    simp only
    split
    · exact List.nodup_singleton _
    · split
      · refine (promotionChoice_nodup false).map fun q q' e => ?_
        cases e
        rfl
      · exact List.nodup_singleton _

theorem mem_movePlies_squares {b : Board} {src dst : Square} {ply : Ply}
    (h : ply ∈ b.movePlies src dst) : ply.src = src ∧ ply.dst = dst := by
  unfold Board.movePlies at h
  cases hp : b.pieceAt src with
  | none =>
    rw [hp] at h
    cases h
  | some p =>
    rw [hp] at h
    simp only at h
    split at h
    · rw [List.mem_singleton.mp h]
      exact ⟨rfl, rfl⟩
    · split at h
      · obtain ⟨q, _, rfl⟩ := List.mem_map.mp h
        exact ⟨rfl, rfl⟩
      · rw [List.mem_singleton.mp h]
        exact ⟨rfl, rfl⟩

section Members

variable [k : Build] {b : Board} {pos : Position}

theorem Sim.mem_checkers (h : Sim b pos) {king : Square}
    (hk : pos.man king = some (pos.side, .king)) (s : Square) :
    mem (b.attackers king b.side.xside) s = true ↔ pos.Checks s king := by
  rw [mem_attackers h.consistent, h.side, Position.Checks, and_iff_right hk]

theorem Sim.capAt (h : Sim b pos) {dst : Square} {cap : Option Piece}
    (hd : pos.man dst = cap.map (fun q => (pos.side.xside, q))) : b.capAt dst = cap := by
  have hmem : mem (b.getPieces b.side.xside) dst = true ↔ cap ≠ none := by
    rw [h.consistent.mem_all, h.side, hd]
    cases cap <;> simp
  cases cap with
  | none => exact capAt_of_not_mem (fun e => hmem.mp e rfl)
  | some q =>
    rw [capAt_of_mem (hmem.mpr (Option.some_ne_none q)), h.consistent.pieceAt_eq, hd]
    rfl

/-- **`add_move` finds out all about a move from its squares.** -/
theorem Sim.mem_movePlies (h : Sim b pos) {src dst : Square} {p : Piece} {cap : Option Piece}
    (hc : pos.Carries src dst p cap) (hk : p ≠ .king) (hep : p = .pawn → pos.ep ≠ some dst)
    (ply : Ply) :
    ply ∈ b.movePlies src dst ↔
      ply.src = src ∧ ply.dst = dst ∧ pos.Pseudo ply ∧ ply.Chosen false := by
  have hp : b.pieceAt src = some p := by
    rw [h.consistent.pieceAt_eq, hc.1]
    rfl
  have hnep : ¬ (p = .pawn ∧ some dst = b.epsq) := by
    rintro ⟨e1, e2⟩
    exact hep e1 (by rw [← h.ep, e2])
  unfold Board.movePlies
  simp only [hp, h.capAt hc.2.1, h.side, if_neg hnep]
  constructor
  · intro hm
    split at hm
    · rename_i hlast
      obtain ⟨q, hq, rfl⟩ := List.mem_map.mp hm
      obtain ⟨rfl, hl⟩ := hlast
      exact ⟨rfl, rfl, ⟨hc, hl, mem_promotionChoice hq⟩, hq⟩
    · rename_i hlast
      rw [List.mem_singleton] at hm
      subst hm
      exact ⟨rfl, rfl, ⟨hc, hlast⟩, trivial⟩
  · rintro ⟨rfl, rfl, hps, hch⟩
    have hpiece : ply.piece = p := by
      have := hps.man_src.symm.trans hc.1
      exact congrArg Prod.snd (Option.some.inj this)
    have hcap : ∀ cap' : Option Piece,
        pos.man ply.dst = cap'.map (fun q => (pos.side.xside, q)) → cap' = cap :=
      fun cap' e => (h.capAt e).symm.trans (h.capAt hc.2.1)
    cases ply with
    | move src dst p' cap' =>
      simp only [Ply.piece] at hpiece
      subst hpiece
      have hl : ¬ (p' = .pawn ∧ rnk (Ply.move src dst p' cap').dst = lastRank pos.side) := hps.2
      rw [if_neg hl, hcap cap' hps.1.2.1]
      exact List.mem_singleton.mpr rfl
    | promote src dst q cap' =>
      simp only [Ply.piece] at hpiece
      subst hpiece
      have hl : rnk (Ply.promote src dst q cap').dst = lastRank pos.side := hps.2.1
      rw [if_pos ⟨rfl, hl⟩, hcap cap' hps.1.2.1]
      exact List.mem_map.mpr ⟨q, hch, rfl⟩
    | enpassant src dst =>
      simp only [Ply.piece] at hpiece
      exact absurd hps.2.1 (hep hpiece.symm)
    | castle f => exact absurd hpiece.symm hk

theorem Sim.mem_kingEscapePlies (h : Sim b pos) {king : Square}
    (hk : pos.man king = some (pos.side, .king)) (ply : Ply) :
    ply ∈ b.kingEscapePlies king ↔ ∃ dst cap, ply = .move king dst .king cap ∧
      pos.Pseudo (.move king dst .king cap) ∧ ¬ Attacked pos.man pos.side.xside dst := by
  have hatk : ∀ dst, mem (Board.kingAttacks king) dst = true ↔ dst ∈ reach pos.man pos.side .king king :=
    fun dst => mem_attacksOf h.consistent (p := .king) (by decide) pos.side king dst
  simp only [Board.kingEscapePlies, List.mem_flatMap, mem_squares, mem_and, Bool.and_eq_true, hatk,
    mem_not, Bool.not_eq_true', ← Bool.not_eq_true, h.consistent.mem_all, h.side]
  constructor
  · rintro ⟨dst, ⟨hr, hown⟩, hm⟩
    split at hm
    · cases hm
    · rename_i hna
      rw [isAttacked_iff h.consistent] at hna
      rw [List.mem_singleton] at hm
      refine ⟨dst, b.capAt dst, hm, ⟨⟨hk, ?_, ?_⟩, fun e => by cases e.1⟩, hna⟩
      · cases hd : pos.man dst with
        | none =>
          have hcap : b.capAt dst = none := h.capAt hd
          rw [hcap]
          rfl
        | some m =>
          obtain ⟨c, q⟩ := m
          rcases eq_or_eq_xside pos.side c with rfl | rfl
          · exact absurd ⟨q, hd⟩ hown
          · have hcap : b.capAt dst = some q := h.capAt hd
            rw [hcap]
            rfl
      · rw [targets_piece (by decide)]
        exact hr
  · rintro ⟨dst, cap, rfl, ⟨⟨_, hd, ht⟩, _⟩, hna⟩
    rw [targets_piece (by decide)] at ht
    refine ⟨dst, ⟨ht, ?_⟩, ?_⟩
    · rintro ⟨q, hq⟩
      rw [hd] at hq
      cases cap with
      | none => cases hq
      | some q' => exact xside_ne pos.side (congrArg Prod.fst (Option.some.inj hq))
    · rw [← isAttacked_iff h.consistent] at hna
      rw [if_neg hna, h.capAt hd]
      exact List.mem_singleton.mpr rfl

theorem Sim.mem_checkerCapturePlies (h : Sim b pos) (hs : Sane pos) {checker king : Square}
    (hchk : pos.Checks checker king) (ply : Ply) :
    ply ∈ b.checkerCapturePlies checker ↔
      ply.dst = checker ∧ ply.piece ≠ .king ∧ pos.Pseudo ply ∧ ply.Chosen false := by
  obtain ⟨_, q, hq, _⟩ := hchk
  have hnep : pos.ep ≠ some checker := by
    intro e
    have := (hs.ep checker e).empty
    rw [hq] at this
    cases this
  have hcarries : ∀ {src p}, pos.man src = some (pos.side, p) →
      checker ∈ reach pos.man pos.side p src → pos.Carries src checker p (some q) := by
    intro src p hm hr
    exact ⟨hm, hq, by rw [Option.isSome_some, targets_capture]; exact hr⟩
  simp only [Board.checkerCapturePlies, List.mem_flatMap, mem_squares, mem_and, mem_not,
    Bool.and_eq_true, Bool.not_eq_true', ← Bool.not_eq_true, mem_attackers h.consistent,
    h.consistent.mem_pos, h.side]
  constructor
  · rintro ⟨src, ⟨⟨p, hm, hr⟩, hk⟩, hply⟩
    have hp : p ≠ .king := fun e => hk (e ▸ hm)
    obtain ⟨rfl, rfl, hps, hch⟩ :=
      (h.mem_movePlies (hcarries hm hr) hp (fun _ => hnep) ply).mp hply
    refine ⟨rfl, fun e => hk ?_, hps, hch⟩
    rw [hps.man_src, e]
  · rintro ⟨rfl, hk, hps, hch⟩
    have hm := hps.man_src
    have hr : ply.dst ∈ reach pos.man pos.side ply.piece ply.src := by
      cases ply with
      | move src dst p cap =>
        obtain rfl := hps.1.cap_of_man hq
        have ht := hps.1.2.2
        rwa [Option.isSome_some, targets_capture] at ht
      | promote src dst p cap =>
        obtain rfl := hps.1.cap_of_man hq
        have ht := hps.1.2.2
        rwa [Option.isSome_some, targets_capture] at ht
      | enpassant src dst => exact absurd hps.2.1 hnep
      | castle f => exact absurd rfl hk
    refine ⟨ply.src, ⟨⟨ply.piece, hm, hr⟩, ?_⟩, ?_⟩
    · rw [hm]
      exact fun e => hk (congrArg Prod.snd (Option.some.inj e))
    · exact (h.mem_movePlies (hcarries hm hr) hk (fun _ => hnep) ply).mpr ⟨rfl, rfl, hps, hch⟩

theorem Sim.mem_checkerEnpassantPlies (h : Sim b pos) (hs : Sane pos) (checker : Square)
    (ply : Ply) :
    ply ∈ b.checkerEnpassantPlies checker ↔
      ply.isEp = true ∧ ply.victim = some checker ∧ pos.Pseudo ply := by
  have hmem : ∀ src ep, mem (b.pawnCaptures ep pos.side.xside &&& b.pos pos.side .pawn) src = true ↔
      pos.man src = some (pos.side, .pawn) ∧ ep ∈ reach pos.man pos.side .pawn src :=
    fun src ep => attacksOf_and_pos h.consistent pos.side .pawn src ep
  unfold Board.checkerEnpassantPlies
  constructor
  · intro hm
    split at hm
    · rename_i hpawn
      simp only [List.mem_flatMap, Option.mem_toList, List.mem_map, mem_squares, h.side, hmem,
        h.ep] at hm
      obtain ⟨ep, he, src, ⟨hsrc, hr⟩, rfl⟩ := hm
      refine ⟨rfl, ?_, hsrc, he, hr⟩
      rw [← hpawn, h.getEppawn hs he hr]
      rfl
    · cases hm
  · rintro ⟨hep, hv, hps⟩
    cases ply with
    | enpassant src dst =>
      obtain ⟨hsrc, he, hr⟩ := hps
      rw [if_pos ((h.getEppawn hs he hr).trans hv)]
      simp only [List.mem_flatMap, Option.mem_toList, List.mem_map, mem_squares, h.side, hmem,
        h.ep]
      exact ⟨dst, he, src, ⟨hsrc, hr⟩, rfl⟩
    | _ => cases hep

theorem Sim.mem_interpositionPlies (h : Sim b pos) (hs : Sane pos) {checker king : Square}
    (hchk : pos.Checks checker king) (ply : Ply) :
    ply ∈ b.interpositionPlies checker king ↔
      Between checker king ply.dst ∧ ply.piece ≠ .king ∧ pos.Pseudo ply ∧ ply.Chosen false := by
  have hray : ∀ {src dst : Square}, Bitboard.any (b.occupied &&& rayBb src dst) = true ↔
      ∃ u, Between src dst u ∧ pos.man u ≠ none := by
    intro src dst
    rw [any_iff]
    refine exists_congr fun u => ?_
    rw [mem_and, Bool.and_eq_true, mem_rayBb, h.consistent.occ_eq, Option.isSome_iff_ne_none,
      and_comm]
  have hcarries : ∀ {src dst : Square} {p : Piece}, pos.man dst = none →
      dst ∈ targets pos.man pos.side p false src → pos.man src = some (pos.side, p) →
      pos.Carries src dst p none :=
    fun hd ht hm => ⟨hm, hd, ht⟩
  simp only [Board.interpositionPlies, List.mem_flatMap, mem_squares, mem_rayBb]
  constructor
  · rintro ⟨dst, hb, src, hsrc, hply⟩
    have hd := hchk.clear hb
    have hnep : pos.ep ≠ some dst := fun e => hs.ep_not_between e hchk hb
    split at hply
    · cases hply
    rw [mem_blockers h.consistent hd, h.side] at hsrc
    obtain ⟨p, hp, hm, ht⟩ : ∃ p, p ≠ .king ∧ pos.man src = some (pos.side, p) ∧
        dst ∈ targets pos.man pos.side p false src := by
      rcases hsrc with ⟨p, h1, h2, hm, hr⟩ | ⟨hm, hr⟩
      · exact ⟨p, h2, hm, by rw [targets_piece h1]; exact hr⟩
      · exact ⟨.pawn, by decide, hm, by rw [targets_push]; exact hr⟩
    obtain ⟨rfl, rfl, hps, hch⟩ :=
      (h.mem_movePlies (hcarries hd ht hm) hp (fun _ => hnep) ply).mp hply
    refine ⟨hb, ?_, hps, hch⟩
    have := congrArg Prod.snd (Option.some.inj (hps.man_src.symm.trans hm))
    exact fun e => hp (this.symm.trans e)
  · rintro ⟨hb, hk, hps, hch⟩
    have hd := hchk.clear hb
    have hnep : pos.ep ≠ some ply.dst := fun e => hs.ep_not_between e hchk hb
    have hm := hps.man_src
    have ht : ply.dst ∈ targets pos.man pos.side ply.piece false ply.src := by
      cases ply with
      | move src dst p cap =>
        obtain rfl := hps.1.cap_of_none hd
        exact hps.1.2.2
      | promote src dst p cap =>
        obtain rfl := hps.1.cap_of_none hd
        exact hps.1.2.2
      | enpassant src dst => exact absurd hps.2.1 hnep
      | castle f => exact absurd rfl hk
    have hsrc : (∃ p, p ≠ .pawn ∧ p ≠ .king ∧ pos.man ply.src = some (pos.side, p) ∧
        ply.dst ∈ reach pos.man pos.side p ply.src) ∨
        (pos.man ply.src = some (pos.side, .pawn) ∧ ply.dst ∈ pushes pos.man pos.side ply.src) := by
      by_cases hp : ply.piece = .pawn
      · rw [hp, targets_push] at ht
        exact Or.inr ⟨hp ▸ hm, ht⟩
      · rw [targets_piece hp] at ht
        exact Or.inl ⟨ply.piece, hp, hk, hm, ht⟩
    refine ⟨ply.dst, hb, ply.src, ?_, ?_⟩
    · rw [mem_blockers h.consistent hd, h.side]
      exact hsrc
    · rw [if_neg]
      · exact (h.mem_movePlies (hcarries hd ht hm) hk (fun _ => hnep) ply).mpr ⟨rfl, rfl, hps, hch⟩
      · rw [hray]
        rintro ⟨u, hu, hn⟩
        rcases hsrc with ⟨p, _, _, _, hr⟩ | ⟨_, hr⟩
        · exact hn ((mem_reach.mp hr).2 u hu)
        · exact hn (push_clear hr hu)

/-- **The answers to one checking man.** -/
theorem Sim.mem_answerPlies (h : Sim b pos) (hs : Sane pos) {checker king : Square}
    (hchk : pos.Checks checker king) (ply : Ply) :
    ply ∈ b.answerPlies checker king ↔ ply.piece ≠ .king ∧ pos.Pseudo ply ∧ ply.Chosen false ∧
      (ply.victim = some checker ∨ Between checker king ply.dst) := by
  have hpart : ply ∈ (if b.pieceAt checker = some .pawn ∨ b.pieceAt checker = some .knight then []
      else b.interpositionPlies checker king) ↔
      Between checker king ply.dst ∧ ply.piece ≠ .king ∧ pos.Pseudo ply ∧ ply.Chosen false := by
    split
    · rename_i hp
      obtain ⟨_, p, hm, _⟩ := id hchk
      rw [h.consistent.pieceAt_eq, hm] at hp
      simp only [Option.map_some, Option.some.injEq] at hp
      simp only [List.not_mem_nil, false_iff]
      exact fun e => hchk.not_between hm hp e.1
    · exact h.mem_interpositionPlies hs hchk ply
  rw [Board.answerPlies, List.mem_append, List.mem_append, hpart,
    h.mem_checkerCapturePlies hs hchk, h.mem_checkerEnpassantPlies hs]
  constructor
  · rintro ((⟨hd, hk, hps, hch⟩ | ⟨hep, hv, hps⟩) | ⟨hb, hk, hps, hch⟩)
    · refine ⟨hk, hps, hch, Or.inl ?_⟩
      have hdst := hs.man_dst hps
      split at hdst
      · rename_i hv
        rw [hv, hd]
      · rw [hd] at hdst
        exact absurd hdst hchk.ne_none
    · cases ply with
      | enpassant src dst => exact ⟨Piece.noConfusion, hps, trivial, Or.inl hv⟩
      | _ => cases hep
    · exact ⟨hk, hps, hch, Or.inr hb⟩
  · rintro ⟨hk, hps, hch, hv | hb⟩
    · rcases ply.victim_cases hv with rfl | ⟨src, dst, rfl, _⟩
      · exact Or.inl (Or.inl ⟨rfl, hk, hps, hch⟩)
      · exact Or.inl (Or.inr ⟨rfl, hv, hps⟩)
    · exact Or.inr ⟨hb, hk, hps, hch⟩

/-- A board in check has a checking man, which `firstbit` finds. -/
theorem Sim.exists_checker (h : Sim b pos) (hc : pos.InCheck) :
    ∃ king checker, b.getKing b.side = some king ∧
      k.firstbit.pick (b.attackers king b.side.xside) = some checker ∧
      pos.Checks checker king := by
  obtain ⟨s, king, hchk⟩ := Position.inCheck_iff.mp hc
  cases hp : k.firstbit.pick (b.attackers king b.side.xside) with
  | none =>
    have h0 := k.firstbit.pick_none _ hp
    have hm := (h.mem_checkers hchk.1 s).mpr hchk
    rw [h0] at hm
    simp at hm
  | some checker =>
    have hm := k.firstbit.pick_mem _ _ hp
    exact ⟨king, checker, by rw [h.side]; exact h.king _ _ hchk.1, hp,
      (h.mem_checkers hchk.1 checker).mp hm⟩

/-- Every ply that is listed is pseudo-legal. -/
theorem Sim.pseudo_of_mem_escapePlies (h : Sim b pos) (hs : Sane pos) {ply : Ply}
    (hm : ply ∈ b.escapePlies) : pos.Pseudo ply ∧ ply.Chosen false := by
  unfold Board.escapePlies at hm
  cases hking : b.getKing b.side with
  | none =>
    rw [hking] at hm
    cases hm
  | some king =>
    rw [hking] at hm
    have hk : pos.man king = some (pos.side, .king) := by
      rw [← h.side]
      exact h.consistent.king _ _ hking
    rcases List.mem_append.mp hm with hm | hm
    · obtain ⟨dst, cap, rfl, hps, _⟩ := (h.mem_kingEscapePlies hk ply).mp hm
      exact ⟨hps, trivial⟩
    · split at hm
      · cases hm
      · obtain ⟨checker, hpick, hm⟩ := List.mem_flatMap.mp hm
        have hchk := k.firstbit.pick_mem _ _ (Option.mem_toList.mp hpick)
        have := (h.mem_answerPlies hs ((h.mem_checkers hk checker).mp hchk) ply).mp hm
        exact ⟨this.2.1, this.2.2.1⟩

/-- **Every legal way out of check is listed.** -/
theorem Sim.mem_escapePlies_of_legal (h : Sim b pos) (hs : Sane pos) (hc : pos.InCheck) {ply : Ply}
    (hl : pos.Legal ply) (hch : ply.Chosen false) : ply ∈ b.escapePlies := by
  obtain ⟨king, checker, hking, hpick, hchk⟩ := h.exists_checker hc
  unfold Board.escapePlies
  rw [hking]
  simp only [hpick, Option.toList_some, List.flatMap_cons, List.flatMap_nil, List.append_nil]
  by_cases hk : ply.piece = .king
  · cases ply with
    | move src dst p cap =>
      obtain rfl : p = .king := hk
      obtain rfl := hs.king_unique _ _ _ hl.1.1.1 hchk.1
      exact List.mem_append_left _
        ((h.mem_kingEscapePlies hchk.1 _).mpr ⟨dst, cap, rfl, hl.1, hl.king_dst hs⟩)
    | castle f => exact absurd hl.1 (Position.Pseudo.not_castle hs hchk)
    | _ => cases hk
  · have hone : Bitboard.popcnt (b.attackers king b.side.xside) = 1 := by
      refine (count_eq_one _).mpr ⟨checker, fun s => ?_⟩
      rw [h.mem_checkers hchk.1]
      exact ⟨fun e => hl.checker_unique hs hk e hchk, fun e => e ▸ hchk⟩
    rw [if_neg (by omega)]
    exact List.mem_append_right _
      ((h.mem_answerPlies hs hchk ply).mpr ⟨hk, hl.1, hch, hl.meets hs hk hchk⟩)

/-! ## The whole list -/

theorem interpositions_eq (h : Sim b pos) {checker king : Square}
    (hchk : pos.Checks checker king) (ml : Movelist) :
    b.interpositions checker king ml =
      ml.addAll ((b.interpositionPlies checker king).map Ply.encode) := by
  unfold Board.interpositions Board.interpositionPlies
  rw [List.map_flatMap]
  apply forSquares_eq
  intro dst hdst ml
  have hd := hchk.clear ((mem_rayBb checker king dst).mp hdst)
  rw [List.map_flatMap]
  apply forSquares_eq
  intro src hsrc ml
  split
  · rfl
  · refine addMove_eq h.consistent ?_ dst ml
    rcases (mem_blockers h.consistent hd src).mp hsrc with ⟨p, _, _, hm, _⟩ | ⟨hm, _⟩ <;> rw [hm] <;>
      exact Option.some_ne_none _

/-- **`generate_escapes` appends the words of `escapePlies`.** -/
theorem Sim.generateEscapes_eq (h : Sim b pos) (ml : Movelist) :
    b.generateEscapes ml = ml.addAll (b.escapePlies.map Ply.encode) := by
  unfold Board.generateEscapes Board.escapePlies
  cases hking : b.getKing b.side with
  | none => rfl
  | some king =>
    have hk : pos.man king = some (pos.side, .king) := by
      rw [← h.side]
      exact h.consistent.king _ _ hking
    simp only [kingEscapes_eq h.consistent, List.map_append, Movelist.addAll_append]
    split
    · rfl
    · cases hp : k.firstbit.pick (b.attackers king b.side.xside) with
      | none => rfl
      | some checker =>
        have hchk := (h.mem_checkers hk checker).mp (k.firstbit.pick_mem _ _ hp)
        simp only [checkerCaptures_eq h.consistent, checkerEnpassant_eq, Option.toList_some,
          List.flatMap_cons, List.flatMap_nil, List.append_nil, Board.answerPlies, List.map_append,
          Movelist.addAll_append]
        split
        · rfl
        · exact interpositions_eq h hchk _

/-! ## No escape is listed twice -/

/-- The loop over the men that can move to one square. -/
theorem nodup_flatMap_movePlies (bb : Bitboard) (dst : Square) (skip : Square → Bool) :
    ((squares bb).flatMap (fun src => if skip src then [] else b.movePlies src dst)).Nodup := by
  apply nodup_flatMap_of_key (k := Ply.src) (g := id)
  · simpa using squares_nodup bb
  · intro src _
    split
    · exact List.nodup_nil
    · exact movePlies_nodup b src dst
  · intro src _ x hx
    split at hx
    · cases hx
    · exact (mem_movePlies_squares hx).1

theorem kingEscapePlies_nodup (b : Board) (king : Square) : (b.kingEscapePlies king).Nodup := by
  apply nodup_flatMap_of_key (k := Ply.dst) (g := id)
  · simpa using squares_nodup (Board.kingAttacks king &&& ~~~b.getPieces b.side)
  · intro dst _
    split
    · exact List.nodup_nil
    · exact List.nodup_singleton _
  · intro dst _ x hx
    split at hx
    · cases hx
    · rw [List.mem_singleton.mp hx]
      rfl

theorem checkerEnpassantPlies_nodup (b : Board) (checker : Square) :
    (b.checkerEnpassantPlies checker).Nodup := by
  unfold Board.checkerEnpassantPlies
  split
  · cases b.epsq with
    | none => exact List.nodup_nil
    | some ep =>
      simp only [Option.toList_some, List.flatMap_cons, List.flatMap_nil, List.append_nil]
      refine (squares_nodup _).map fun s t e => ?_
      cases e
      rfl
  · exact List.nodup_nil

theorem interpositionPlies_nodup (b : Board) (checker king : Square) :
    (b.interpositionPlies checker king).Nodup := by
  apply nodup_flatMap_of_key (k := Ply.dst) (g := id)
  · simpa using squares_nodup (rayBb checker king)
  · intro dst _
    exact nodup_flatMap_movePlies _ dst fun src => Bitboard.any (b.occupied &&& rayBb src dst)
  · intro dst _ x hx
    obtain ⟨src, _, hx⟩ := List.mem_flatMap.mp hx
    split at hx
    · cases hx
    · exact (mem_movePlies_squares hx).2

theorem Sim.answerPlies_nodup (h : Sim b pos) (hs : Sane pos) {checker king : Square}
    (hchk : pos.Checks checker king) : (b.answerPlies checker king).Nodup := by
  have hep : ∀ {ply}, ply.isEp = true → ∀ {s}, pos.man s ≠ none → pos.Pseudo ply → ply.dst ≠ s := by
    intro ply he s hn hps
    cases ply with
    | enpassant src dst =>
      rintro rfl
      exact hn (hs.ep dst hps.2.1).empty
    | _ => cases he
  have hlast : (if b.pieceAt checker = some .pawn ∨ b.pieceAt checker = some .knight then []
      else b.interpositionPlies checker king).Nodup := by
    split
    · exact List.nodup_nil
    · exact interpositionPlies_nodup b checker king
  rw [Board.answerPlies, List.nodup_append, List.nodup_append]
  refine ⟨⟨?_, checkerEnpassantPlies_nodup b checker, ?_⟩, hlast, ?_⟩
  · exact nodup_flatMap_movePlies _ checker fun _ => false
  · rintro x hx y hy rfl
    obtain ⟨hd, _, hps, _⟩ := (h.mem_checkerCapturePlies hs hchk x).mp hx
    obtain ⟨he, _, _⟩ := (h.mem_checkerEnpassantPlies hs checker x).mp hy
    exact hep he hchk.ne_none hps hd
  · rintro x hx y hy rfl
    split at hy
    · cases hy
    obtain ⟨hb, _, hps, _⟩ := (h.mem_interpositionPlies hs hchk x).mp hy
    rcases List.mem_append.mp hx with hx | hx
    · obtain ⟨hd, _⟩ := (h.mem_checkerCapturePlies hs hchk x).mp hx
      exact hb.ne_left hd.symm
    · obtain ⟨he, _, _⟩ := (h.mem_checkerEnpassantPlies hs checker x).mp hx
      cases x with
      | enpassant src dst => exact hs.ep_not_between hps.2.1 hchk hb
      | _ => cases he

theorem Sim.escapePlies_nodup (h : Sim b pos) (hs : Sane pos) : b.escapePlies.Nodup := by
  unfold Board.escapePlies
  cases hking : b.getKing b.side with
  | none => exact List.nodup_nil
  | some king =>
    have hk : pos.man king = some (pos.side, .king) := by
      rw [← h.side]
      exact h.consistent.king _ _ hking
    simp only
    split
    · rw [List.append_nil]
      exact kingEscapePlies_nodup b king
    · cases hp : k.firstbit.pick (b.attackers king b.side.xside) with
      | none =>
        rw [Option.toList_none, List.flatMap_nil, List.append_nil]
        exact kingEscapePlies_nodup b king
      | some checker =>
        have hchk := (h.mem_checkers hk checker).mp (k.firstbit.pick_mem _ _ hp)
        simp only [Option.toList_some, List.flatMap_cons, List.flatMap_nil, List.append_nil]
        rw [List.nodup_append]
        refine ⟨kingEscapePlies_nodup b king, h.answerPlies_nodup hs hchk, ?_⟩
        rintro x hx y hy rfl
        obtain ⟨dst, cap, rfl, _⟩ := (h.mem_kingEscapePlies hk x).mp hx
        exact ((h.mem_answerPlies hs hchk _).mp hy).1 rfl

theorem Sim.of_mem_generateEscapes (h : Sim b pos) (hs : Sane pos) {mov : Move}
    (hm : mov ∈ (b.generateEscapes .empty).moves) : ∃ ply, mov = ply.encode ∧ pos.Pseudo ply := by
  rw [h.generateEscapes_eq, Movelist.addAll_moves_take, Movelist.moves_empty, List.nil_append] at hm
  obtain ⟨ply, hp, rfl⟩ := List.mem_map.mp (List.mem_of_mem_take hm)
  exact ⟨ply, rfl, (h.pseudo_of_mem_escapePlies hs hp).1⟩

end Members

/-! ## Agreement with the plain generator -/

section Agreement

variable [k : Build] {b : Board} {pos : Position}

/-- What the fast path has to satisfy on a board whose side to move is in check. -/
structure EscapesAgree (b : Board) : Prop where
  same : ∀ mov, mov ∈ (b.filterIllegal (b.generateEscapes .empty)).moves ↔
    mov ∈ (b.filterIllegal (b.generateMoves false .empty)).moves
  escapes_nodup : (b.generateEscapes .empty).moves.Nodup
  moves_nodup : (b.generateMoves false .empty).moves.Nodup
  legal_escapes_nodup : (b.filterIllegal (b.generateEscapes .empty)).moves.Nodup
  legal_moves_nodup : (b.filterIllegal (b.generateMoves false .empty)).moves.Nodup

theorem Sim.generateEscapes_moves (h : Sim b pos) (hs : Sane pos) (hm : MaterialOk pos) :
    (b.generateEscapes .empty).moves = b.escapePlies.map Ply.encode := by
  rw [h.generateEscapes_eq]
  exact addAll_plies_moves hs hm (h.escapePlies_nodup hs)
    (fun _ hp => (h.pseudo_of_mem_escapePlies hs hp).1)

/-- **After `filter_illegal` the escapes are the legal moves.** -/
theorem Sim.mem_filterIllegal_generateEscapes (h : Sim b pos) (hs : Sane pos) (hm : MaterialOk pos)
    (hc : pos.InCheck) (mov : Move) :
    mov ∈ (b.filterIllegal (b.generateEscapes .empty)).moves ↔
      ∃ ply, mov = ply.encode ∧ pos.Legal ply ∧ ply.Chosen false := by
  rw [Board.filterIllegal, Movelist.mem_filterBy, h.generateEscapes_moves hs hm, List.mem_map]
  constructor
  · rintro ⟨⟨ply, hp, rfl⟩, hl⟩
    obtain ⟨hps, hch⟩ := h.pseudo_of_mem_escapePlies hs hp
    exact ⟨ply, rfl, ⟨hps, (h.isLegalMove hs hps).mp hl⟩, hch⟩
  · rintro ⟨ply, rfl, hl, hch⟩
    exact ⟨⟨ply, h.mem_escapePlies_of_legal hs hc hl hch, rfl⟩, (h.isLegalMove hs hl.1).mpr hl.2⟩

/-- **`generate_escapes` agrees with `generate_moves`** on every board of a game
whose side to move is in check. -/
theorem reached_escapesAgree (h : Reached b) (hc : b.inCheck = true) : EscapesAgree b := by
  obtain ⟨pos, hsim, hp⟩ := h.sim
  have hs := hp.sane
  have hm := hp.materialOk
  have hcheck := (hsim.inCheck (hs.king_exists _)).mp hc
  have hesc : (b.generateEscapes .empty).moves.Nodup := by
    rw [hsim.generateEscapes_moves hs hm]
    exact encode_nodup (hsim.escapePlies_nodup hs)
  have hmov : (b.generateMoves false .empty).moves.Nodup := by
    rw [hsim.generateMoves_moves hs hm]
    exact encode_nodup (hsim.plies_nodup hs.toValid false)
  refine ⟨fun mov => ?_, hesc, hmov, Movelist.filterBy_nodup _ hesc, Movelist.filterBy_nodup _ hmov⟩
  rw [hsim.mem_filterIllegal_generateEscapes hs hm hcheck,
    hsim.mem_filterIllegal_generateMoves hs hm]

end Agreement

/-- 1. e4 d5 2. Bb5 and black is in check. -/
def bishopCheck : List Ply :=
  [.move 12 28 .pawn none, .move 51 35 .pawn none, .move f1 33 .bishop none]

/-- The two lists agree after a check by the bishop. -/
theorem escapesAgree_bishopCheck : ∃ b, @Reached sampleBuild b ∧ b.inCheck = true ∧
    @EscapesAgree sampleBuild b := by
  let _ := sampleBuild
  obtain ⟨b, hb, hsim, hp⟩ := reached_line (l := bishopCheck) (by decide +kernel)
  have hc : b.inCheck = true :=
    (hsim.inCheck (hp.sane.king_exists _)).mpr (by decide +kernel)
  exact ⟨b, hb, hc, reached_escapesAgree hb hc⟩

end HoiChess.Chess
