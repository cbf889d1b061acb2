import HoiChess.Chess.Simulation

/-!
# What the fields of a board have to say

`FieldsAgree` states of the redundant fields of a board, one by one and without
a word about the rules, that they say the same.  It holds of every consistent
board whose king squares are right (`Consistent.fieldsAgree`), and piece
operations that neither place nor remove a king keep the king squares right
(`Kings.runOps`).
-/

namespace HoiChess.Chess

open WordSet Grid Rules Incremental

/-- The image of a set of squares under one of the rotation maps. -/
def imageBb (map : Square → Square) (bb : Bitboard) : Bitboard :=
  ofList (((List.finRange 64).filter (mem bb)).map map)

theorem eq_imageBb {map : Square → Square} (hinj : ∀ s t, map s = map t → s = t)
    (hsurj : ∀ t, ∃ s, map s = t) {bb bb' : Bitboard} (h : ∀ s, mem bb' (map s) = mem bb s) :
    bb' = imageBb map bb := by
  apply WordSet.ext
  intro t
  obtain ⟨s, rfl⟩ := hsurj t
  rw [h, imageBb, mem_ofList, Bool.eq_iff_iff, decide_eq_true_iff, List.mem_map]
  constructor
  · exact fun hs => ⟨s, by simp [hs], rfl⟩
  · rintro ⟨s', hs', e⟩
    rw [← hinj _ _ e]
    simpa using hs'

theorem mapL90_surjective : ∀ t : Square, ∃ s, mapL90 s = t :=
  Finite.surjective_of_injective mapL90_injective

theorem mapL45_surjective : ∀ t : Square, ∃ s, mapL45 s = t :=
  Finite.surjective_of_injective mapL45_injective

theorem mapR45_surjective : ∀ t : Square, ∃ s, mapR45 s = t :=
  Finite.surjective_of_injective mapR45_injective

/-- The redundant fields of a board agree with its pieces. -/
structure FieldsAgree [Build] (b : Board) : Prop where
  disjoint : ∀ c p c' p', (c, p) ≠ (c', p') → b.pos c p &&& b.pos c' p' = nullBitboard
  positionAll : ∀ c, b.getPieces c = b.pos c .pawn ||| b.pos c .knight ||| b.pos c .bishop |||
    b.pos c .rook ||| b.pos c .queen ||| b.pos c .king
  occupied : b.occupied = b.getPieces .white ||| b.getPieces .black
  occupiedL90 : b.occupiedL90 = imageBb mapL90 b.occupied
  occupiedL45 : b.occupiedL45 = imageBb mapL45 b.occupied
  occupiedR45 : b.occupiedR45 = imageBb mapR45 b.occupied
  king : ∀ c, ∃ sq, b.getKing c = some sq ∧ ∀ t, mem (b.pos c .king) t = true ↔ t = sq
  material : ∀ c, b.material.get c = ∑ sq, manValue c (b.manAt sq)
  hashkey : b.hashkey = xorSum (fun sq => manKey sq (b.manAt sq)) ^^^ sideKey b.side ^^^
    flagsKey b ^^^ Board.epKey b.epsq
  pawnhashkey : b.pawnhashkey = xorSum (fun sq => manPawnKey sq (b.manAt sq)) ^^^ sideKey b.side

/-- The king squares are those of a placement with one king each. -/
def Kings (b : Board) (man : Placement) : Prop :=
  ∀ c, ∃ sq, b.getKing c = some sq ∧ ∀ t, man t = some (c, .king) ↔ t = sq

section Fields

variable [k : Build] {b : Board} {man : Placement}

theorem Consistent.disjoint (h : Consistent b man) {c c' : Color} {p p' : Piece}
    (hne : (c, p) ≠ (c', p')) : b.pos c p &&& b.pos c' p' = nullBitboard := by
  rw [eq_zero_iff]
  intro sq
  rw [mem_and, Bool.and_eq_false_iff, ← Bool.not_eq_true, ← Bool.not_eq_true, h.mem_pos, h.mem_pos]
  by_cases hm : man sq = some (c, p)
  · right
    rw [hm]
    exact fun e => hne (Option.some.inj e)
  · exact Or.inl hm

theorem Consistent.getPieces_eq (h : Consistent b man) (c : Color) :
    b.getPieces c = b.pos c .pawn ||| b.pos c .knight ||| b.pos c .bishop ||| b.pos c .rook |||
      b.pos c .queen ||| b.pos c .king := by
  apply WordSet.ext
  intro sq
  rw [Bool.eq_iff_iff, h.mem_all]
  simp only [mem_or, Bool.or_eq_true, h.mem_pos]
  constructor
  · rintro ⟨p, hp⟩
    cases p <;> simp [hp]
  · rintro (((((hp | hp) | hp) | hp) | hp) | hp) <;> exact ⟨_, hp⟩

theorem Consistent.occupied_eq (h : Consistent b man) :
    b.occupied = b.getPieces .white ||| b.getPieces .black := by
  apply WordSet.ext
  intro sq
  rw [Bool.eq_iff_iff, mem_or, Bool.or_eq_true, h.mem_occ, h.mem_all, h.mem_all]
  constructor
  · rintro ⟨c, p, hp⟩
    cases c
    · exact Or.inl ⟨p, hp⟩
    · exact Or.inr ⟨p, hp⟩
  · rintro (⟨p, hp⟩ | ⟨p, hp⟩) <;> exact ⟨_, p, hp⟩

/-- **A consistent board with the right king squares.** -/
theorem Consistent.fieldsAgree (h : Consistent b man) (hk : Kings b man) : FieldsAgree b := by
  have hman := h.manAt_eq
  have hrot : ∀ {bb : Bitboard} {map : Square → Square},
      (∀ s, mem bb (map s) = (man s).isSome) → ∀ s, mem bb (map s) = mem b.occupied s :=
    fun e s => by rw [e, h.occ_eq]
  refine ⟨fun c p c' p' => h.disjoint, h.getPieces_eq, h.occupied_eq,
    eq_imageBb mapL90_injective mapL90_surjective (hrot h.rot.occL90),
    eq_imageBb mapL45_injective mapL45_surjective (hrot h.rot.occL45),
    eq_imageBb mapR45_injective mapR45_surjective (hrot h.rot.occR45), ?_, ?_, ?_, ?_⟩
  · intro c
    obtain ⟨sq, hsq, ht⟩ := hk c
    exact ⟨sq, hsq, fun t => (h.mem_pos c .king t).trans (ht t)⟩
  · rw [hman]
    exact h.material
  · rw [hman, h.hash, stateKey, ← BitVec.xor_assoc]
  · rw [hman]
    exact h.pawnhash

theorem Sim.kings {pos : Position} (h : Sim b pos) (hv : Valid pos) : Kings b pos.man := by
  intro c
  obtain ⟨sq, hsq⟩ := hv.king_exists c
  exact ⟨sq, h.king c sq hsq, fun t => ⟨fun e => hv.king_unique _ _ _ e hsq, fun e => e ▸ hsq⟩⟩

/-- The operation neither places nor removes a king. -/
def PieceOp.SparesKings : PieceOp → Prop
  | .place _ _ p | .remove _ _ p => p ≠ .king
  | .move _ _ _ _ => True

theorem Kings.place {s d p} (hk : Kings b man) (hok : (PieceOp.place s d p).OkAt man) (hp : p ≠ .king) :
    Kings ((PieceOp.place s d p).exec b) ((PieceOp.place s d p).apply man) := by
  intro c
  obtain ⟨sq, hsq, ht⟩ := hk c
  have hs : s ≠ sq := by
    rintro rfl
    rw [PieceOp.OkAt, (ht s).mpr rfl] at hok
    cases hok
  refine ⟨sq, ?_, fun t => ?_⟩
  · change (if p = .king then b.king.set d (some s) else b.king).get c = some sq
    rw [if_neg hp]
    exact hsq
  · rw [← ht, PieceOp.apply]
    by_cases e : t = s
    · subst e
      rw [Function.update_self, ht]
      exact ⟨fun e => absurd (congrArg Prod.snd (Option.some.inj e)) hp, fun e => absurd e hs⟩
    · rw [Function.update_of_ne e]

theorem Kings.remove {s d p} (hk : Kings b man) (hok : (PieceOp.remove s d p).OkAt man)
    (hp : p ≠ .king) :
    Kings ((PieceOp.remove s d p).exec b) ((PieceOp.remove s d p).apply man) := by
  intro c
  obtain ⟨sq, hsq, ht⟩ := hk c
  have hm : man s = some (d, p) := hok
  refine ⟨sq, ?_, fun t => ?_⟩
  · change (if p = .king then b.king.set d none else b.king).get c = some sq
    rw [if_neg hp]
    exact hsq
  · rw [← ht, PieceOp.apply]
    by_cases e : t = s
    · subst e
      rw [Function.update_self, hm]
      refine ⟨fun e => (by cases e), fun e => ?_⟩
      exact absurd (congrArg Prod.snd (Option.some.inj e)) hp
    · rw [Function.update_of_ne e]

theorem Kings.move {s t d p} (hk : Kings b man) (hok : (PieceOp.move s t d p).OkAt man) :
    Kings ((PieceOp.move s t d p).exec b) ((PieceOp.move s t d p).apply man) := by
  intro c
  obtain ⟨sq, hsq, ht⟩ := hk c
  obtain ⟨hm, hn⟩ : man s = some (d, p) ∧ man t = none := hok
  have hst : s ≠ t := by
    rintro rfl
    rw [hm] at hn
    cases hn
  have hking : ((PieceOp.move s t d p).exec b).getKing c =
      if p = .king ∧ d = c then some t else some sq := by
    change (if p = .king then b.king.set d (some t) else b.king).get c = _
    by_cases hp : p = .king
    · rw [if_pos hp, PerColor.get_set]
      by_cases hd : d = c
      · rw [if_pos hd, if_pos ⟨hp, hd⟩]
      · rw [if_neg hd, if_neg (fun e => hd e.2)]
        exact hsq
    · rw [if_neg hp, if_neg (fun e => hp e.1)]
      exact hsq
  refine ⟨if p = .king ∧ d = c then t else sq, by rw [hking]; split <;> rfl, fun u => ?_⟩
  simp only [PieceOp.apply]
  by_cases hu : u = t
  · subst hu
    rw [Function.update_self]
    split
    · rename_i e
      rw [e.1, e.2]
      exact iff_of_true rfl rfl
    · rename_i e
      refine iff_of_false (fun h => e ?_) ?_
      · exact ⟨congrArg Prod.snd (Option.some.inj h), congrArg Prod.fst (Option.some.inj h)⟩
      · rintro rfl
        rw [(ht u).mpr rfl] at hn
        cases hn
  · rw [Function.update_of_ne hu]
    by_cases hus : u = s
    · subst hus
      rw [Function.update_self]
      refine iff_of_false (fun h => by cases h) ?_
      split
      · exact hst
      · rename_i e
        rintro rfl
        rw [(ht u).mpr rfl] at hm
        have := Option.some.inj hm
        exact e ⟨(congrArg Prod.snd this).symm, (congrArg Prod.fst this).symm⟩
    · rw [Function.update_of_ne hus]
      split
      · rename_i e
        obtain ⟨rfl, rfl⟩ := e
        refine iff_of_false (fun h => hus ?_) hu
        rw [(ht u).mp h, (ht s).mp hm]
      · exact ht u

/-- **Piece operations keep the king squares right.** -/
theorem Kings.exec (hk : Kings b man) {op : PieceOp} (hok : op.OkAt man) (hs : op.SparesKings) :
    Kings (op.exec b) (op.apply man) := by
  cases op with
  | place s d p => exact hk.place hok hs
  | remove s d p => exact hk.remove hok hs
  | move s t d p => exact hk.move hok

theorem Kings.runOps (hk : Kings b man) {ops : List PieceOp} (hok : OpsOkAt man ops)
    (hs : ∀ op ∈ ops, op.SparesKings) : Kings (b.runOps ops) (ops.foldl PieceOp.apply man) := by
  induction ops generalizing b man with
  | nil => exact hk
  | cons op ops ih =>
    exact ih (hk.exec hok.1 (hs op List.mem_cons_self)) hok.2
      (fun o ho => hs o (List.mem_cons_of_mem _ ho))

/-- **`make_move` keeps the fields in agreement if its operations find what they assert.** -/
theorem Consistent.makeMove_fieldsAgree (h : Consistent b man) (hk : Kings b man) {mov : Move}
    (hops : OpsOkAt man (b.moveOps mov)) (hs : ∀ op ∈ b.moveOps mov, op.SparesKings) :
    FieldsAgree (b.makeMove mov) := by
  refine (h.makeMove mov hops).fieldsAgree ?_
  have hrun := hk.runOps hops hs
  intro c
  obtain ⟨sq, hsq, ht⟩ := hrun c
  refine ⟨sq, ?_, ht⟩
  rw [Board.getKing, makeMove_king]
  exact hsq

end Fields

end HoiChess.Chess
