import Mathlib.Data.Set.Card
import HoiChess.Chess.Mobility
import HoiChess.Chess.WellPlaced
import HoiChess.Chess.Reached

/-!
# Playing on from a FEN

`parse_fen` takes castling letters and the en passant square as they come, and
the generator trusts them.  For a placement field of eight ranks of eight files
every call of `place_piece` is good (`callsOk_of_eightByEight`), and every listed move can
be made with all its piece operations in order exactly if every castling move
that is listed finds king and rook at home and every en passant capture that
is listed finds an empty square and a pawn to take (`parseFen_playsOn_iff`).
-/

namespace HoiChess.Chess

open WordSet Grid Rules

/-! ## Eight ranks of eight files -/

/-- `cs` completes a rank of which `files` files are read, and then reads `ranks` more ranks. -/
def readsRanks : List Char → Nat → Nat → Bool
  | [], ranks, files => decide (ranks = 0 ∧ files = 8)
  | c :: cs, ranks, files =>
    if (fenPiece c).isSome then decide (files < 8) && readsRanks cs ranks (files + 1)
    else
      match fenDigit c with
      | some n => decide (files + n ≤ 8) && readsRanks cs ranks (files + n)
      | none => decide (c = '/' ∧ files = 8 ∧ 0 < ranks) && readsRanks cs (ranks - 1) 0

/-- The placement field describes eight ranks of eight files. -/
def eightByEight (cs : List Char) : Bool := readsRanks cs 7 0

/-- The text has six fields, the first of which describes eight ranks of eight files. -/
def describesEightByEight (s : String) : Bool :=
  (fenFields s).any (fun f => eightByEight f.pos)

theorem placeLoop_readsRanks {cs : List Char} {ranks files : Nat}
    (h : readsRanks cs ranks files = true) :
    ∀ p ∈ (placeLoop cs ranks files).1, p.fil ≤ 7 ∧ p.rnk ≤ ranks := by
  induction cs generalizing ranks files with
  | nil => intro p hp; cases hp
  | cons c cs ih =>
    intro p hp
    rw [readsRanks] at h
    rw [placeLoop] at hp
    split at hp
    · cases hp
    cases hc : fenPiece c with
    | some m =>
      simp only [hc, Option.isSome_some, if_true, Bool.and_eq_true, decide_eq_true_eq] at h
      rw [hc] at hp
      rcases List.mem_cons.mp hp with rfl | hp
      · exact ⟨by dsimp only; omega, le_rfl⟩
      · exact ih h.2 p hp
    | none =>
      simp only [hc, Option.isSome_none, Bool.false_eq_true, if_false] at h
      rw [hc] at hp
      cases hd : fenDigit c with
      | some n =>
        simp only [hd, Bool.and_eq_true] at h
        rw [hd] at hp
        exact ih h.2 p hp
      | none =>
        simp only [hd, Bool.and_eq_true, decide_eq_true_eq] at h
        obtain ⟨⟨rfl, _, hr⟩, hrest⟩ := h
        simp only [hd, if_true] at hp
        have hcast : (ranks : Int) - 1 = ((ranks - 1 : Nat) : Int) := by omega
        rw [hcast] at hp
        have := ih hrest p hp
        omega

/-- **Every call for eight ranks of eight files is good.** -/
theorem callsOk_of_eightByEight [Build] {cs : List Char} (h : eightByEight cs = true) :
    CallsOk Board.clear (placeLoop cs rank8 0).1 := by
  have hloop := placeLoop_readsRanks h
  obtain ⟨hspec, hpair⟩ := placeLoop_spec cs rank8 0
  rw [callsOk_iff .clear]
  refine ⟨fun p hp => ?_, ?_⟩
  · have h1 := hloop p hp
    have h2 := hspec p hp
    have hidx : 0 ≤ p.index ∧ p.index < 64 := by
      unfold Placing.index
      omega
    exact ⟨⟨p.index.toNat, by omega⟩, Placing.sq_eq_some.mpr (by simp only; omega), rfl⟩
  · exact hpair.imp_of_mem fun _ hq hb => hb.index_ne (hloop _ hq).1

/-! ## Where a move stands in the list -/

/-- What is before `x` in a list is what is kept before it. -/
theorem mem_take_append_cons {α : Type} {l l' : List α} {x : α} (h : (l ++ x :: l').Nodup)
    (n : Nat) : x ∈ (l ++ x :: l').take n ↔ l.length < n := by
  constructor
  · intro hx
    by_contra hn
    rw [List.take_append_of_le_length (by omega)] at hx
    have hd := (List.nodup_append.mp h).2.2 x (List.mem_of_mem_take hx) x List.mem_cons_self
    exact hd rfl
  · intro hn
    obtain ⟨m, rfl⟩ := Nat.exists_eq_add_of_lt hn
    have e : l.length + m + 1 = l.length + (m + 1) := by omega
    rw [e, List.take_length_add_append, List.take_succ_cons]
    exact List.mem_append_right _ List.mem_cons_self

/-- The castling move that the generator tries before `f`. -/
def CastleFlag.previous : CastleFlag → Option CastleFlag
  | .wq => some .wk
  | .bq => some .bk
  | _ => none

namespace Rules

/-- The moves that are listed before the castling move `f`. -/
def Position.listedBefore (pos : Position) (allpromo : Bool) (f : CastleFlag) : Set Ply :=
  {ply | pos.Listed ply ∧ ply.Chosen allpromo ∧
    (ply.isTactical = true ∨ ∃ g, f.previous = some g ∧ ply = .castle g)}

/-- The castling move `f` does not fall off the end of the move list. -/
def Position.HasRoom (pos : Position) (allpromo : Bool) (f : CastleFlag) : Prop :=
  (pos.listedBefore allpromo f).ncard < movelistMaxsize

end Rules

theorem ncard_eq_length {α : Type} {l : List α} (h : l.Nodup) {s : Set α}
    (hs : ∀ x, x ∈ s ↔ x ∈ l) : s.ncard = l.length := by
  classical
  have e : s = (l.toFinset : Set α) := by
    ext x
    rw [hs, Finset.mem_coe, List.mem_toFinset]
  rw [e, Set.ncard_coe_finset, List.toFinset_card_of_nodup h]

theorem length_flatMap_le_mul {α β : Type} {l : List α} {f : α → List β} {n : Nat}
    (h : ∀ a ∈ l, (f a).length ≤ n) : (l.flatMap f).length ≤ l.length * n := by
  induction l with
  | nil => simp
  | cons a l ih =>
    have ha := h a List.mem_cons_self
    have hl := ih (fun x hx => h x (List.mem_cons_of_mem _ hx))
    rw [List.flatMap_cons, List.length_append, List.length_cons, Nat.succ_mul]
    omega

/-- The castling plies as far as the one for `f`. -/
theorem castlePlies_split {b : Board} {f : CastleFlag} (h : Ply.castle f ∈ b.castlePlies) :
    ∃ l l', b.castlePlies = l ++ .castle f :: l' ∧
      ∀ ply, ply ∈ l ↔ ply ∈ b.castlePlies ∧ ∃ g, f.previous = some g ∧ ply = .castle g := by
  have key : ∀ g q : CastleFlag, g.previous = none → q.previous = some g → ∀ l,
      l = [g, q].flatMap (fun f => if b.mayCastle f then [Ply.castle f] else []) →
      .castle f ∈ l → ∃ l1 l2, l = l1 ++ .castle f :: l2 ∧
        ∀ ply, ply ∈ l1 ↔ ply ∈ l ∧ ∃ g, f.previous = some g ∧ ply = .castle g := by
    rintro g q hg hq l rfl hf
    simp only [List.flatMap_cons, List.flatMap_nil, List.append_nil, List.mem_append] at hf ⊢
    rcases hf with hf | hf
    · split at hf
      · rename_i hm
        obtain rfl : f = g := by simpa using hf
        rw [if_pos hm]
        exact ⟨[], _, rfl, fun ply => by simp [hg]⟩
      · cases hf
    · split at hf
      · rename_i hm
        obtain rfl : f = q := by simpa using hf
        rw [if_pos hm]
        refine ⟨_, [], rfl, fun ply => ?_⟩
        simp only [hq, Option.some.injEq, exists_eq_left']
        split
        · simpa using Or.inl
        · have hne : f ≠ g := by
            rintro rfl
            rw [hg] at hq
            cases hq
          simpa using fun e : ply = .castle f => fun e' => hne (Ply.castle.inj (e.symm.trans e'))
      · cases hf
  have h' := h
  unfold Board.castlePlies at h' 
  split at h'
  · cases h'
  · split at h'
    · refine key .wk .wq rfl rfl _ ?_ h
      simp [Board.castlePlies, *]
    · refine key .bk .bq rfl rfl _ ?_ h
      simp [Board.castlePlies, *]

section Listing

variable [k : Build] {b : Board} {pos : Position}

/-- The list holds the first `MOVELIST_MAXSIZE` plies. -/
theorem mem_generateMoves_take {man : Placement} (h : Consistent b man) (allpromo : Bool)
    (mov : Move) : mov ∈ (b.generateMoves allpromo .empty).moves ↔
      ∃ ply ∈ (b.plies allpromo).take movelistMaxsize, ply.encode = mov := by
  rw [generateMoves_eq h, Movelist.addAll_moves_take, Movelist.moves_empty, List.nil_append,
    ← List.map_take, List.mem_map]

/-- **A castling move is in the list unless what comes before it fills the list.** -/
theorem Sim.castle_mem_take (h : Sim b pos) (hv : Valid pos) {f : CastleFlag}
    (hf : pos.Listed (.castle f)) (allpromo : Bool) :
    .castle f ∈ (b.plies allpromo).take movelistMaxsize ↔ pos.HasRoom allpromo f := by
  obtain ⟨l, l', hsplit, hl⟩ := castlePlies_split ((h.mem_castlePlies hv _).mpr ⟨f, rfl, hf⟩)
  have hnodup := h.plies_nodup hv allpromo
  have e : b.plies allpromo = (b.capturePlies allpromo ++ l) ++ .castle f ::
      (l' ++ b.pushPlies ++ Board.pieces.flatMap (b.piecePlies (~~~b.occupied) (fun _ => none))) := by
    simp only [Board.plies, Board.noncapturePlies, hsplit, List.append_assoc, List.cons_append]
  rw [e] at hnodup ⊢
  rw [mem_take_append_cons hnodup, Position.HasRoom,
    ncard_eq_length (List.nodup_append.mp hnodup).1]
  intro ply
  rw [List.mem_append, h.mem_capturePlies hv, hl, h.mem_castlePlies hv]
  constructor
  · rintro ⟨h1, h2, h3 | ⟨g, hg, rfl⟩⟩
    · exact Or.inl ⟨h1, h3, h2⟩
    · exact Or.inr ⟨⟨g, rfl, h1⟩, g, hg, rfl⟩
  · rintro (⟨h1, h2, h3⟩ | ⟨⟨g, rfl, hg⟩, g', hg', e'⟩)
    · exact ⟨h1, h3, Or.inl h2⟩
    · exact ⟨hg, trivial, Or.inr ⟨g', hg', e'⟩⟩

/-- The pawn loops that come first cannot fill the list. -/
theorem Sim.length_pawn_plies_le (h : Sim b pos) (hv : Valid pos) (allpromo : Bool) :
    (b.promotionPlies allpromo).length + b.pawnCapturePlies.length ≤ movelistMaxsize := by
  have hreach : ∀ src (bb : Bitboard),
      (squares (b.pawnCaptures src b.side &&& bb)).length ≤ 2 := by
    intro src bb
    refine ((List.subperm_of_subset (squares_nodup _) ?_).length_le).trans
      (length_pawn_reach_le pos.man b.side src)
    intro dst hd
    rw [mem_squares, mem_and, Bool.and_eq_true, mem_pawnCaptures h.consistent] at hd
    exact hd.1.1
  have hranks : ∀ c, ((List.finRange 64).filter
      (fun sq => mem (Board.promotionRank c) sq)).length ≤ 8 := by
    decide
  have hrank : (squares (b.pos b.side .pawn &&& Board.promotionRank b.side)).length ≤ 8 := by
    refine ((List.subperm_of_subset (squares_nodup _) ?_).length_le).trans (hranks b.side)
    intro sq hsq
    rw [mem_squares, mem_and, Bool.and_eq_true] at hsq
    simpa using hsq.2
  have hpush : ∀ src ∈ squares (b.pos b.side .pawn &&& Board.promotionRank b.side),
      (squares (b.pawnNoncaptures src b.side)).length ≤ 2 := by
    intro src hsrc
    rw [mem_squares, mem_and, Bool.and_eq_true, h.consistent.mem_pos] at hsrc
    have hp := hv.pawns _ _ hsrc.1
    have hl : rnk src ≠ lastRank b.side := by
      cases b.side
      · exact hp.2
      · exact hp.1
    refine ((List.subperm_of_subset (squares_nodup _) ?_).length_le).trans
      ((length_pushes_le pos.man b.side src).trans (by split <;> decide))
    intro dst hd
    rwa [mem_squares, mem_pawnNoncaptures h.consistent _ hl] at hd
  have hchoice : (Board.promotionChoice allpromo).length ≤ 4 := by cases allpromo <;> decide
  have hpromo : (b.promotionPlies allpromo).length ≤ 8 * 16 := by
    refine (length_flatMap_le_mul (n := 16) fun src hsrc => ?_).trans
      (Nat.mul_le_mul_right 16 hrank)
    have h1 := length_flatMap_le_mul (n := 4) (l := squares (b.pawnCaptures src b.side &&&
      b.getPieces b.side.xside)) (f := fun dst => (Board.promotionChoice allpromo).map
        (fun p => Ply.promote src dst p (b.pieceAt dst))) (fun _ _ => by simpa using hchoice)
    have h2 := length_flatMap_le_mul (n := 4) (l := squares (b.pawnNoncaptures src b.side))
      (f := fun dst => (Board.promotionChoice allpromo).map
        (fun p => Ply.promote src dst p none)) (fun _ _ => by simpa using hchoice)
    have h3 := hreach src (b.getPieces b.side.xside)
    have h4 := hpush src hsrc
    rw [List.length_append]
    omega
  have hpawn : b.pawnCapturePlies.length ≤ 64 * 2 := by
    refine (length_flatMap_le_mul (n := 2) fun src _ => ?_).trans (Nat.mul_le_mul_right 2 ?_)
    · rw [List.length_map]
      exact hreach src _
    · exact (List.Nodup.length_le_card (squares_nodup _)).trans_eq (Fintype.card_fin 64)
  exact Nat.add_le_add hpromo hpawn

/-- En passant captures are always in the list. -/
theorem Sim.enpassant_mem_take (h : Sim b pos) (hv : Valid pos) {src dst : Square}
    (hp : pos.Listed (.enpassant src dst)) (allpromo : Bool) :
    .enpassant src dst ∈ (b.plies allpromo).take movelistMaxsize := by
  have hlen := h.length_pawn_plies_le hv allpromo
  have hmem : .enpassant src dst ∈ b.promotionPlies allpromo ++ b.pawnCapturePlies :=
    List.mem_append_right _ ((h.mem_pawnCapturePlies _).mpr (Or.inl ⟨src, dst, rfl, hp⟩))
  rw [Board.plies, Board.capturePlies, List.append_assoc, List.take_append,
    List.take_of_length_le (by rwa [List.length_append])]
  exact List.mem_append_left _ hmem

end Listing

/-! ## Which positions can be played on -/

namespace Board

section Build

variable [Build] (b : Board)

/-- Every listed move can be made: each piece operation finds what it asserts,
and the fields agree afterwards. -/
def PlaysOn (allpromo : Bool) : Prop :=
  ∀ mov ∈ (b.generateMoves allpromo .empty).moves,
    b.OpsOk (b.moveOps mov) ∧ FieldsAgree (b.makeMove mov)

end Build

/-- Castling that is possible has king and rook at home, and an en passant
capture that is possible goes to an empty square and has a pawn to take. -/
structure Playable (b : Board) (allpromo : Bool) : Prop where
  castle : ∀ f, b.abs.Listed (.castle f) → b.abs.HasRoom allpromo f →
    b.manAt f.kingHome = some (b.side, .king) ∧ b.manAt f.rookHome = some (b.side, .rook)
  enpassant : ∀ src dst, b.abs.Listed (.enpassant src dst) →
    b.manAt dst = none ∧ ∃ v, b.getEppawn = some v ∧ b.manAt v = some (b.side.xside, .pawn)

end Board

section Playing

variable {b : Board} {man : Placement} {c : Color}

/-- The two moves of castling. -/
theorem opsOkAt_castle {f : CastleFlag} (ep : Option Square)
    (hfree : ∀ u, Between f.kingHome f.rookHome u → man u = none) :
    OpsOkAt man (Ply.ops c ep (.castle f)) ↔
      man f.kingHome = some (c, .king) ∧ man f.rookHome = some (c, .rook) := by
  have hd : f.kingDest ≠ f.rookHome ∧ f.kingHome ≠ f.rookHome ∧ f.kingDest ≠ f.transit ∧
      f.kingHome ≠ f.transit := by cases f <;> decide
  obtain ⟨d1, d2, d3, d4⟩ := hd
  have hdest := hfree _ (between_kingDest f)
  have htransit := hfree _ (between_transit f)
  simp only [Ply.ops, OpsOkAt, PieceOp.OkAt, PieceOp.apply, Function.update_of_ne d1.symm,
    Function.update_of_ne d2.symm, Function.update_of_ne d3.symm, Function.update_of_ne d4.symm,
    hdest, htransit, and_true]

/-- The capturing pawn moves, then the captured one is removed. -/
theorem opsOkAt_enpassant {src dst v : Square} (hsrc : man src = some (c, .pawn)) :
    OpsOkAt man (Ply.ops c (some v) (.enpassant src dst)) ↔
      man dst = none ∧ man v = some (c.xside, .pawn) := by
  simp only [Ply.ops, Option.map_some, Option.toList_some, OpsOkAt, PieceOp.OkAt, PieceOp.apply,
    and_true, hsrc, true_and]
  refine and_congr_right fun hdst => ?_
  by_cases hvd : v = dst
  · subst hvd
    rw [Function.update_self, hdst]
    simp [ne_xside c]
  · rw [Function.update_of_ne hvd]
    by_cases hvs : v = src
    · subst hvs
      rw [Function.update_self, hsrc]
      simp [ne_xside c]
    · rw [Function.update_of_ne hvs]

/-- An en passant square on the third or sixth rank has its pawn. -/
theorem getEppawn_isSome {e : Square} (he : b.epsq = some e)
    (hr : rnk e = rank3 ∨ rnk e = rank6) : ∃ v, b.getEppawn = some v := by
  rw [Board.getEppawn, he]
  simp only
  split
  · exact ⟨_, rfl⟩
  · rename_i h3
    rw [if_pos (hr.resolve_left h3)]
    exact ⟨_, rfl⟩

/-- No listed move puts a king on the board or takes one off. -/
theorem sparesKings_of_listed {pos : Position} (hsafe : pos.Safe) {ply : Ply}
    (hp : pos.Listed ply) (ep : Option Square) :
    ∀ op ∈ ply.ops pos.side ep, op.SparesKings := by
  have hcap : ∀ src dst p q, pos.Carries src dst p (some q) → q ≠ .king :=
    fun src dst p q hc => hc.cap_ne_king hsafe
  have hprom : ∀ p ∈ promotionPieces, p ≠ .king := by decide
  cases ply with
  | move src dst p cap =>
    cases cap with
    | none => simp [Ply.ops, PieceOp.SparesKings]
    | some q => simpa [Ply.ops, PieceOp.SparesKings] using hcap src dst p q hp.1
  | promote src dst p cap =>
    have := hprom p hp.2.2
    cases cap with
    | none => simpa [Ply.ops, PieceOp.SparesKings] using this
    | some q =>
      simpa [Ply.ops, PieceOp.SparesKings] using ⟨hcap src dst .pawn q hp.1, this⟩
  | enpassant src dst => cases ep <;> simp [Ply.ops, PieceOp.SparesKings]
  | castle f => simp [Ply.ops, PieceOp.SparesKings]

/-- **Which listed moves find the board as they assert.** -/
theorem opsOkAt_listed (hep : ∀ e, b.epsq = some e → rnk e = rank3 ∨ rnk e = rank6) {ply : Ply}
    (hp : b.abs.Listed ply) : OpsOkAt b.manAt (ply.ops b.side b.getEppawn) ↔
      (∀ f, ply = .castle f →
        b.manAt f.kingHome = some (b.side, .king) ∧ b.manAt f.rookHome = some (b.side, .rook)) ∧
      ∀ src dst, ply = .enpassant src dst →
        b.manAt dst = none ∧ ∃ v, b.getEppawn = some v ∧ b.manAt v = some (b.side.xside, .pawn) := by
  cases ply with
  | move src dst p cap =>
    have hok : OpsOkAt b.manAt (Ply.ops b.side b.getEppawn (.move src dst p cap)) :=
      opsOkAt_move hp.1 _
    simpa using hok
  | promote src dst p cap =>
    have hok : OpsOkAt b.manAt (Ply.ops b.side b.getEppawn (.promote src dst p cap)) :=
      opsOkAt_promote hp.1 p _
    simpa using hok
  | enpassant src dst =>
    have hsrc : b.manAt src = some (b.side, .pawn) := hp.1
    obtain ⟨v, hv⟩ := getEppawn_isSome hp.2.1 (hep dst hp.2.1)
    rw [hv, opsOkAt_enpassant hsrc]
    simp
  | castle f =>
    have hfree : ∀ u, Between f.kingHome f.rookHome u → b.manAt u = none := hp.2.2.1
    rw [opsOkAt_castle _ hfree]
    simp

variable [k : Build]

/-- An accepted FEN with eight ranks of eight files describes a board of the rules. -/
theorem sim_of_parseFen {s : String} (h : Board.parseFen s = .accepted b)
    (h8 : describesEightByEight s = true) : Sim b b.abs ∧ Valid b.abs ∧
      ∀ e, b.epsq = some e → rnk e = rank3 ∨ rnk e = rank6 := by
  obtain ⟨f, hf, hacc⟩ := fields_of_accepted h
  rw [describesEightByEight, hf, Option.any_some] at h8
  have h := accepted_spec (callsOk_of_eightByEight h8) hacc
  exact ⟨h.sim, h.valid, h.epsq⟩

/-- **Playing on from an accepted FEN.** -/
theorem parseFen_playsOn_iff {s : String} (h : Board.parseFen s = .accepted b)
    (h8 : describesEightByEight s = true) (allpromo : Bool) :
    b.PlaysOn allpromo ↔ b.Playable allpromo := by
  obtain ⟨hsim, hv, hep⟩ := sim_of_parseFen h h8
  have hcons : Consistent b b.manAt := hsim.consistent
  constructor
  · intro hplay
    have hops : ∀ ply, b.abs.Listed ply → ply ∈ (b.plies allpromo).take movelistMaxsize →
        OpsOkAt b.manAt (ply.ops b.side b.getEppawn) := by
      intro ply _ hmem
      have hmov := hplay _ ((mem_generateMoves_take hcons allpromo _).mpr ⟨ply, hmem, rfl⟩)
      rw [moveOps_encode, opsOk_iff hcons] at hmov
      exact hmov.1
    constructor
    · intro f hf hroom
      have hok := hops _ hf ((hsim.castle_mem_take hv hf allpromo).mpr hroom)
      exact ((opsOkAt_listed hep hf).mp hok).1 f rfl
    · intro src dst hp
      have hok := hops _ hp (hsim.enpassant_mem_take hv hp allpromo)
      exact ((opsOkAt_listed hep hp).mp hok).2 src dst rfl
  · intro hplay mov hmov
    obtain ⟨ply, hmem, rfl⟩ := (mem_generateMoves_take hcons allpromo mov).mp hmov
    have hp := ((hsim.mem_plies hv allpromo ply).mp (List.mem_of_mem_take hmem)).1
    have hok : OpsOkAt b.manAt (b.moveOps ply.encode) := by
      rw [moveOps_encode, opsOkAt_listed hep hp]
      constructor
      · rintro f rfl
        exact hplay.castle f hp ((hsim.castle_mem_take hv hp allpromo).mp hmem)
      · rintro src dst rfl
        exact hplay.enpassant src dst hp
    refine ⟨(opsOk_iff hcons _).mpr hok, hcons.makeMove_fieldsAgree (hsim.kings hv) hok ?_⟩
    rw [moveOps_encode]
    exact sparesKings_of_listed hv.safe hp _

end Playing

/-- `K` is accepted although no rook stands on `h1`; castling is listed and moves nothing there. -/
theorem castling_without_rook :
    ∃ b, @Board.parseFen sampleBuild "4k3/8/8/8/8/8/8/4K3 w K - 0 1" = .accepted b ∧
      describesEightByEight "4k3/8/8/8/8/8/8/4K3 w K - 0 1" = true ∧
      ¬ @Board.PlaysOn sampleBuild b true := by
  let _ := sampleBuild
  let castling (b : Board) : Bool :=
    decide (Ply.encode (.castle .wk) ∈ (b.generateMoves true .empty).moves ∧
      ¬ b.OpsOk (b.moveOps (Ply.encode (.castle .wk))))
  have hrun : (Board.parseFen "4k3/8/8/8/8/8/8/4K3 w K - 0 1").holds castling = true := by
    decide +kernel
  obtain ⟨b, hb, hcastle⟩ := FenResult.holds_eq_true.mp hrun
  obtain ⟨hmem, hops⟩ := of_decide_eq_true hcastle
  exact ⟨b, hb, by decide +kernel, fun hplay => hops (hplay _ hmem).1⟩

/-- The opening position can be played on. -/
theorem playsOn_opening : ∃ b, @Board.parseFen sampleBuild openingFen = .accepted b ∧
    @Board.PlaysOn sampleBuild b true := by
  let _ := sampleBuild
  obtain ⟨b, hb, hsim⟩ := parseFen_opening
  refine ⟨b, hb, (parseFen_playsOn_iff hb (by decide +kernel) true).mpr ⟨?_, ?_⟩⟩
  · rw [hsim.abs_eq]
    intro f hf
    have hbishop := hf.2.2.1 _ (between_transit f)
    exact absurd hbishop (by cases f <;> decide)
  · rw [hsim.abs_eq]
    intro src dst hp
    cases hp.2.1

/-! ## The room of a list -/

/-- The list holds every move that is generated. -/
def Board.ListsAll [Build] (b : Board) : Prop :=
  ∀ ply, b.abs.Listed ply → ply.encode ∈ (b.generateMoves true .empty).moves

theorem chosen_of_listed {pos : Position} {ply : Ply} (h : pos.Listed ply) : ply.Chosen true := by
  cases ply with
  | promote src dst p cap => exact h.2.2
  | _ => trivial

section Room

variable [k : Build] {b : Board} {pos : Position}

/-- The number of calls of `add`. -/
theorem Sim.length_plies (h : Sim b pos) (hv : Valid pos) :
    {ply | pos.Listed ply}.ncard = (b.plies true).length := by
  refine ncard_eq_length (h.plies_nodup hv true) fun ply => ?_
  rw [h.mem_plies hv]
  exact (and_iff_left_of_imp chosen_of_listed).symm

/-- The list is cut after 256 moves. -/
theorem Sim.listsAll_iff (h : Sim b pos) (hv : Valid pos) :
    b.ListsAll ↔ (b.plies true).length ≤ movelistMaxsize := by
  have hnodup := h.plies_nodup hv true
  unfold Board.ListsAll
  rw [h.abs_eq]
  constructor
  · intro hall
    by_contra hlong
    have hlt : movelistMaxsize < (b.plies true).length := not_le.mp hlong
    have hlist : pos.Listed (b.plies true)[movelistMaxsize] :=
      ((h.mem_plies hv true _).mp (List.getElem_mem hlt)).1
    obtain ⟨ply, hmem, heq⟩ := (mem_generateMoves_take h.consistent true _).mp (hall _ hlist)
    obtain rfl := Ply.encode_injective heq
    obtain ⟨i, hi, hget⟩ := List.mem_take_iff_getElem.mp hmem
    have hidx : i = movelistMaxsize := (hnodup.getElem_inj_iff).mp hget
    omega
  · intro hle ply hp
    refine (mem_generateMoves_take h.consistent true _).mpr ⟨ply, ?_, rfl⟩
    rw [List.take_of_length_le hle]
    exact (h.mem_plies hv true ply).mpr ⟨hp, chosen_of_listed hp⟩

/-- **What the room of a list is good for** on an accepted board: it ends with the first 256 of
the moves, and so it has all of them exactly if there are no more; and there are no more where
the castling flags and the en passant square are true and each side's men can come from the
opening by promotion. -/
theorem parseFen_listsAll_iff {s : String} (h : Board.parseFen s = .accepted b)
    (h8 : describesEightByEight s = true) :
    (b.generateMoves true .empty).size = min {ply | b.abs.Listed ply}.ncard movelistMaxsize ∧
      (b.ListsAll ↔ {ply | b.abs.Listed ply}.ncard ≤ movelistMaxsize) ∧
      (Sane b.abs → MaterialOk b.abs → b.ListsAll) := by
  obtain ⟨hsim, hv, _⟩ := sim_of_parseFen h h8
  rw [hsim.length_plies hv, hsim.listsAll_iff hv]
  refine ⟨?_, Iff.rfl, fun hs hm => ?_⟩
  · rw [Movelist.size, ← Movelist.length_moves, generateMoves_eq hsim.consistent,
      Movelist.addAll_moves_take, Movelist.moves_empty, List.nil_append, List.length_take,
      List.length_map, min_comm]
  · refine pseudo_length_le hs hm (hsim.plies_nodup hv true) fun ply hp => ?_
    exact (listed_iff_pseudo hs ply).mp ((hsim.mem_plies hv true ply).mp hp).1

end Room

/-- The opening position has room for its moves. -/
theorem listsAll_opening : ∃ b, @Board.parseFen sampleBuild openingFen = .accepted b ∧
    (@Board.generateMoves sampleBuild b true .empty).size =
        min {ply | b.abs.Listed ply}.ncard movelistMaxsize ∧
      (@Board.ListsAll sampleBuild b ↔ {ply | b.abs.Listed ply}.ncard ≤ movelistMaxsize) ∧
      (Sane b.abs → MaterialOk b.abs → @Board.ListsAll sampleBuild b) := by
  let _ := sampleBuild
  obtain ⟨b, hb, hsim⟩ := parseFen_opening
  exact ⟨b, hb, parseFen_listsAll_iff hb (by decide +kernel)⟩

/-- Twenty-four queens on the border, two bishops and a rook have 271 moves. -/
theorem listsAll_queens :
    ∃ b, @Board.parseFen sampleBuild "QQQQQQBk/Q5RB/Q6Q/Q6Q/Q6Q/Q6Q/Q6Q/KQQQQQQQ w - - 0 1" = .accepted b ∧
      describesEightByEight "QQQQQQBk/Q5RB/Q6Q/Q6Q/Q6Q/Q6Q/Q6Q/KQQQQQQQ w - - 0 1" = true ∧
      ¬ @Board.ListsAll sampleBuild b := by
  let _ := sampleBuild
  have hrun : (Board.parseFen "QQQQQQBk/Q5RB/Q6Q/Q6Q/Q6Q/Q6Q/Q6Q/KQQQQQQQ w - - 0 1").holds
      (fun b => decide (movelistMaxsize < (b.plies true).length)) = true := by
    decide +kernel
  obtain ⟨b, hb, hlong⟩ := FenResult.holds_eq_true.mp hrun
  have h8 : describesEightByEight "QQQQQQBk/Q5RB/Q6Q/Q6Q/Q6Q/Q6Q/Q6Q/KQQQQQQQ w - - 0 1" = true := by
    decide +kernel
  obtain ⟨hsim, hv, _⟩ := sim_of_parseFen hb h8
  exact ⟨b, hb, h8, fun hall => absurd ((hsim.listsAll_iff hv).mp hall)
    (not_le.mpr (of_decide_eq_true hlong))⟩

end HoiChess.Chess
