import HoiChess.Chess.Exact
import HoiChess.Chess.Pins
import HoiChess.Chess.Unambiguous

/-!
# Where the fast parser undoes the printers

`do_parse_move_1` looks for the origin of a piece move among all men of the kind that
reach the square and agree with what is printed of the origin; among several it takes
the first that is not pinned or stands between the square and the king.  A pinned piece
that steps towards its king is overlooked so (`Sim.origin_eq_some`).  And coordinates
that lead to the en passant square are taken for an en passant capture, whatever piece
moves.  Every other legal move is read back from its SAN and from its coordinates
(`reached_readsBack_iff`).
-/

namespace HoiChess.Chess

open WordSet Grid Rules

/-- The first of a list that passes a test: the others do not, or come later. -/
theorem find?_eq_some_iff_sublist {α : Type} [DecidableEq α] {p : α → Bool} {l : List α} {a : α}
    (hl : l.Nodup) (ha : a ∈ l) :
    l.find? p = some a ↔ p a = true ∧ ∀ c ∈ l, c ≠ a → p c = false ∨ [a, c].Sublist l := by
  induction l with
  | nil => cases ha
  | cons x l ih =>
    obtain ⟨hx, hl⟩ := List.nodup_cons.mp hl
    by_cases hxa : x = a
    · subst hxa
      constructor
      · intro hf
        refine ⟨List.find?_some hf, fun c hc hne => Or.inr ?_⟩
        exact List.Sublist.cons_cons x
          (List.singleton_sublist.mpr ((List.mem_cons.mp hc).resolve_left hne))
      · rintro ⟨hp, _⟩
        exact List.find?_cons_of_pos hp
    · have ha := (List.mem_cons.mp ha).resolve_left (Ne.symm hxa)
      have hlater : ∀ c, [a, c].Sublist (x :: l) ↔ [a, c].Sublist l := fun c =>
        ⟨fun h => by
          cases h with
          | cons _ h => exact h
          | cons_cons _ _ => exact absurd rfl hxa, fun h => h.cons x⟩
      cases hpx : p x with
      | true =>
        rw [List.find?_cons_of_pos hpx]
        constructor
        · intro e
          exact absurd (Option.some.inj e) hxa
        · rintro ⟨_, h⟩
          rcases h x List.mem_cons_self hxa with e | hs
          · rw [hpx] at e
            cases e
          · exact absurd (((hlater x).mp hs).subset (List.mem_cons_of_mem _ (List.mem_singleton.mpr rfl))) hx
      | false =>
        rw [List.find?_cons_of_neg (by simp [hpx]), ih hl ha]
        refine and_congr_right fun _ => ?_
        constructor
        · intro h c hc hne
          rcases List.mem_cons.mp hc with rfl | hc
          · exact Or.inl hpx
          · exact (h c hc hne).imp_right (hlater c).mpr
        · intro h c hc hne
          exact (h c (List.mem_cons_of_mem _ hc) hne).imp_right (hlater c).mp

section Origin

variable [k : Build] {b : Board} {pos : Position} {src dst : Square} {p : Piece}
  {f r : Option (Fin 8)}

theorem Sim.mem_origins (h : Sim b pos) (hp : p ≠ .pawn) (c : Square) :
    mem (b.origins p f r dst) c = true ↔
      pos.man c = some (pos.side, p) ∧ dst ∈ reach pos.man pos.side p c ∧
        (∀ i, f = some i → filIdx c = i) ∧ ∀ i, r = some i → rnkIdx c = i := by
  have hall : mem (b.attacksOf p b.side dst &&& b.pos b.side p) c = true ↔
      pos.man c = some (pos.side, p) ∧ dst ∈ reach pos.man pos.side p c := by
    have hside : b.attacksOf p b.side dst = b.attacksOf p b.side.xside dst := by
      cases p with
      | pawn => exact absurd rfl hp
      | _ => rfl
    rw [hside, h.side]
    exact attacksOf_and_pos h.consistent pos.side p c dst
  have hfil : ∀ i : Fin 8, fil c = i.val ↔ filIdx c = i := fun i =>
    (Fin.ext_iff (a := filIdx c)).symm
  have hrnk : ∀ i : Fin 8, rnk c = i.val ↔ rnkIdx c = i := fun i =>
    (Fin.ext_iff (a := rnkIdx c)).symm
  unfold Board.origins
  cases f <;> cases r <;>
    simp only [mem_and, Bool.and_eq_true, mem_rankBb, mem_fileBb, decide_eq_true_eq] <;>
    rw [← Bool.and_eq_true, ← mem_and, hall] <;>
    simp only [hfil, hrnk, Option.some.injEq, forall_eq', reduceCtorEq, false_imp_iff,
      implies_true, and_true, true_and, and_assoc]
  rw [and_comm (a := rnkIdx c = _)]

/-- **Which man the parser takes.** -/
theorem Sim.origin_eq_some (h : Sim b pos) (hv : Valid pos) (hp : p ≠ .pawn)
    (hsrc : mem (b.origins p f r dst) src = true) :
    b.origin p f r dst = some src ↔ ∀ c, mem (b.origins p f r dst) c = true → c ≠ src →
      ¬ pos.Astray dst src ∧
        (pos.Astray dst c ∨ [src, c].Sublist (squares (b.origins p f r dst))) := by
  obtain ⟨king, hk⟩ := hv.king_exists pos.side
  have hking : b.getKing b.side = some king := by
    rw [h.side]
    exact h.king _ _ hk
  have htest : ∀ c, (Bitboard.testbit (b.pinned king b.side) c &&
      Bitboard.testbit (rayBb dst king) c || !Bitboard.testbit (b.pinned king b.side) c) = true ↔
        ¬ pos.Astray dst c := by
    intro c
    have hpin := h.mem_pinned hk c
    have hray := mem_rayBb dst king c
    have hastray : pos.Astray dst c ↔ (∃ s, pos.Shields s king c) ∧ ¬ Between dst king c := by
      constructor
      · rintro ⟨s, k', hsh, hb⟩
        obtain rfl := hv.king_unique _ _ _ hk hsh.king
        exact ⟨⟨s, hsh⟩, hb⟩
      · rintro ⟨⟨s, hsh⟩, hb⟩
        exact ⟨s, king, hsh, hb⟩
    show (mem (b.pinned king b.side) c && mem (rayBb dst king) c ||
      !mem (b.pinned king b.side) c) = true ↔ _
    rw [hastray, ← hpin, ← hray]
    cases mem (b.pinned king b.side) c <;> cases mem (rayBb dst king) c <;> simp
  have hsole : (∀ c, mem (b.origins p f r dst) c = true → c = src) →
      b.origin p f r dst = some src := by
    intro hone
    unfold Board.origin
    split
    · obtain ⟨_, _, hi, hj⟩ := (h.mem_origins hp src).mp hsrc
      rw [← hi _ rfl, ← hj _ rfl, mkSquare_rnkIdx_filIdx]
    · have hcount : Bitboard.popcnt (b.origins p f r dst) = 1 :=
        (count_eq_one _).mpr ⟨src, fun c => ⟨hone c, fun e => e ▸ hsrc⟩⟩
      simp only [hcount, Nat.one_ne_zero, if_false, if_true]
      cases hpick : k.firstbit.pick (b.origins p f r dst) with
      | none =>
        rw [k.firstbit.pick_none _ hpick] at hsrc
        simp at hsrc
      | some c => rw [hone c (k.firstbit.pick_mem _ c hpick)]
  by_cases hone : ∀ c, mem (b.origins p f r dst) c = true → c = src
  · exact ⟨fun _ c hc hne => absurd (hone c hc) hne, fun _ => hsole hone⟩
  · obtain ⟨c', hc'⟩ := not_forall.mp hone
    obtain ⟨hc', hne'⟩ := Classical.not_imp.mp hc'
    have hsearch : b.origin p f r dst = (squares (b.origins p f r dst)).find? fun sq =>
        Bitboard.testbit (b.pinned king b.side) sq && Bitboard.testbit (rayBb dst king) sq ||
          !Bitboard.testbit (b.pinned king b.side) sq := by
      unfold Board.origin
      split
      · obtain ⟨_, _, hi, hj⟩ := (h.mem_origins hp src).mp hsrc
        obtain ⟨_, _, hi', hj'⟩ := (h.mem_origins hp c').mp hc'
        refine absurd ?_ hne'
        rw [← mkSquare_rnkIdx_filIdx c', ← mkSquare_rnkIdx_filIdx src, hi _ rfl, hj _ rfl,
          hi' _ rfl, hj' _ rfl]
      · have h0 : Bitboard.popcnt (b.origins p f r dst) ≠ 0 := by
          intro e
          rw [(count_eq_zero _).mp e] at hsrc
          simp at hsrc
        have h1 : Bitboard.popcnt (b.origins p f r dst) ≠ 1 := by
          intro e
          obtain ⟨i, hi⟩ := (count_eq_one _).mp e
          exact hne' (((hi c').mp hc').trans ((hi src).mp hsrc).symm)
        simp only [if_neg h0, if_neg h1, hking]
    rw [hsearch, find?_eq_some_iff_sublist (squares_nodup _) ((mem_squares _ _).mpr hsrc), htest]
    simp only [mem_squares, ← Bool.not_eq_true, htest, not_not]
    constructor
    · rintro ⟨hs, hrest⟩ c hc hne
      exact ⟨hs, hrest c hc hne⟩
    · intro hall
      exact ⟨(hall c' hc' hne').1, fun c hc hne => (hall c hc hne).2⟩

end Origin

/-! ## Calls for the printed moves -/

theorem Rules.Ply.exists_factory (ply : Ply) : ∃ fac : Factory, fac.ply = some ply := by
  cases ply with
  | move src dst p cap =>
    cases cap with
    | none => exact ⟨.normal src dst (some p), rfl⟩
    | some q => exact ⟨.capture src dst (some p) (some q), rfl⟩
  | promote src dst p cap =>
    cases cap with
    | none => exact ⟨.promotion src dst (some p), rfl⟩
    | some q => exact ⟨.promotionCapture src dst (some p) (some q), rfl⟩
  | enpassant src dst => exact ⟨.enpassant src dst, rfl⟩
  | castle f => exact ⟨.castle f.kingHome f, if_pos rfl⟩

theorem Rules.Ply.encode_ne_noMove (ply : Ply) : ply.encode ≠ .noMove := by
  obtain ⟨fac, hfac⟩ := ply.exists_factory
  rw [← Factory.ply_encode hfac]
  exact word_ne_noMove fac

theorem coordinateCastle_eq_some {b : Board} {src dst : Square} {f : CastleFlag}
    (hf : b.coordinateCastle src dst = some f) : src = f.kingHome ∧ dst = f.kingDest := by
  unfold Board.coordinateCastle at hf
  split at hf
  · rename_i hc
    cases hf
    exact hc.2.2
  split at hf
  · rename_i hc
    cases hf
    exact hc.2.2
  split at hf
  · rename_i hc
    cases hf
    exact hc.2.2
  split at hf <;> cases hf
  rename_i hc
  exact hc.2.2

/-- A piece other than a pawn goes to the en passant square. -/
def Rules.Position.StrMissed (pos : Position) : Ply → Prop
  | .move _ dst p _ => p ≠ .pawn ∧ pos.ep = some dst
  | _ => False

/-- No pawn steps onto the en passant square without capturing. -/
theorem Rules.Sane.push_ne_ep {pos : Position} (hs : Sane pos) {src dst : Square}
    (hc : pos.Carries src dst .pawn none) : pos.ep ≠ some dst := by
  intro he
  have hep := hs.ep dst he
  have ht := hc.2.2
  rw [Option.isSome_none, targets_push, mem_pushes] at ht
  rcases ht with ⟨ha, _⟩ | ⟨hr, ha, _⟩
  · have hback : Along dst (forward pos.side.xside) 1 src := by
      have := ha.symm
      have hneg : -forward pos.side = forward pos.side.xside := by
        cases pos.side <;> decide
      rwa [hneg] at this
    have := hep.pawn src hback
    rw [hc.1] at this
    exact ne_xside pos.side (congrArg Prod.fst (Option.some.inj this))
  · have h2 := (along_forward ha).2
    have hrank := hep.rank
    cases hside : pos.side <;> rw [hside] at h2 hr hrank <;>
      simp only [Ahead, pawnRank, epRank, rank2, rank3, rank6, rank7] at h2 hr hrank <;> omega

section Calls

variable [k : Build] {b : Board} {pos : Position} {ply : Ply}

/-- **A legal move is parsed if its call is made.** -/
theorem Sim.parseMove1_eq_iff (h : Sim b pos) (hs : Sane pos) (hl : pos.Legal ply)
    (s : List Char) : b.parseMove1 s = ply.encode ↔
      ∃ fac, b.readMove (scanText s) = some fac ∧ fac.ply = some ply := by
  unfold Board.parseMove1 Board.doParseMove1
  cases hread : b.readMove (scanText s) with
  | none => simp [Ne.symm ply.encode_ne_noMove]
  | some fac =>
    simp only [Option.some.injEq, exists_eq_left']
    constructor
    · intro e
      split at e
      · exact Factory.ply_of_word e
      · exact absurd e.symm ply.encode_ne_noMove
    · intro hply
      have hword := Factory.ply_encode hply
      have hallowed := readMove_allowed hread
      rw [h.side] at hallowed
      have hvalid : b.isValidMove fac.word = true :=
        (h.isValidMove_word hs fac hallowed).mpr (Factory.accepted_of_ply hply hl.1)
      have hlegal : b.isLegalMove fac.word = true := by
        rw [hword]
        exact (h.isLegalMove hs hl.1).mpr hl.2
      rw [if_pos ⟨word_ne_noMove fac, hvalid, hlegal⟩, hword]

/-- No man stands on the en passant square. -/
theorem Sim.ne_epsq (h : Sim b pos) (hs : Sane pos) {src dst : Square} {p q : Piece}
    (hc : pos.Carries src dst p (some q)) : some dst ≠ b.epsq := by
  intro e
  rw [h.ep] at e
  have hman := hc.2.1
  rw [(hs.ep dst e.symm).empty] at hman
  cases hman

/-- **A pawn's capture in SAN is read back.** -/
theorem Sim.captureCall_of_legal (h : Sim b pos) (hs : Sane pos) (hp : pos.Pseudo ply)
    (hpawn : ply.piece = .pawn) (hcap : ply.captured.isSome = true) :
    ∃ fac, b.captureCall (filIdx ply.src) ply.dst (ply.promoted.map pieceLetter) = some fac ∧
      fac.ply = some ply := by
  have ht := hp.pawn_targets hpawn
  rw [hcap, targets_capture] at ht
  have horigin : wrapSquare (if b.side = .white then rnk ply.dst - 1 else rnk ply.dst + 1)
      (filIdx ply.src).val = ply.src := h.captureOrigin_of_reach ht
  unfold Board.captureCall
  simp only [horigin]
  cases ply with
  | move src dst p cap =>
    cases hpawn
    obtain ⟨q, rfl⟩ := Option.isSome_iff_exists.mp hcap
    have hc : pos.Carries src dst .pawn (some q) := hp.1
    refine ⟨.capture src dst (some .pawn) (some q), ?_, rfl⟩
    show (if some dst = b.epsq then _ else _) = _
    rw [if_neg (h.ne_epsq hs hc)]
    show some (Factory.capture src dst (some .pawn) (b.pieceAt dst)) = _
    rw [h.pieceAt_dst hc]
  | promote src dst p cap =>
    obtain ⟨q, rfl⟩ := Option.isSome_iff_exists.mp hcap
    have hc : pos.Carries src dst .pawn (some q) := hp.1
    refine ⟨.promotionCapture src dst (some p) (some q), ?_, rfl⟩
    show (promoUpper (pieceLetter p)).map
      (fun x => Factory.promotionCapture src dst (some x) (b.pieceAt dst)) = _
    rw [promoUpper_pieceLetter hp.2.2, h.pieceAt_dst hc]
    rfl
  | enpassant src dst =>
    refine ⟨.enpassant src dst, ?_, rfl⟩
    show (if some dst = b.epsq then _ else _) = _
    rw [if_pos (h.ep.trans hp.2.1).symm]
    rfl
  | castle f => cases hpawn

/-- **A pawn's advance in SAN is read back.** -/
theorem Sim.pushCall_of_legal (h : Sim b pos) (hs : Sane pos) (hp : pos.Pseudo ply)
    (hpawn : ply.piece = .pawn) (hcap : ply.captured.isSome = false) :
    ∃ fac, b.pushCall ply.dst (ply.promoted.map pieceLetter) = some fac ∧ fac.ply = some ply := by
  have hc := hp.pawn_carries hpawn hcap
  obtain ⟨r, hr, horigin⟩ := h.pushOrigin hs.toValid hc
  unfold Board.pushCall
  rw [hr]
  cases ply with
  | move src dst p cap =>
    cases hpawn
    obtain rfl : cap = none := by simpa [Ply.captured] using hcap
    have horigin : wrapSquare r (fil dst) = src := horigin
    refine ⟨.normal src dst (some .pawn), ?_, rfl⟩
    show some (Factory.normal (wrapSquare r (fil dst)) dst (some .pawn)) = _
    rw [horigin]
  | promote src dst p cap =>
    obtain rfl : cap = none := by simpa [Ply.captured] using hcap
    have horigin : wrapSquare r (fil dst) = src := horigin
    refine ⟨.promotion src dst (some p), ?_, rfl⟩
    show (promoUpper (pieceLetter p)).map
      (fun x => Factory.promotion (wrapSquare r (fil dst)) dst (some x)) = _
    rw [promoUpper_pieceLetter hp.2.2, horigin]
    rfl
  | enpassant src dst => cases hcap
  | castle f => cases hpawn

theorem Sim.castleCall_of_legal (h : Sim b pos) {f : CastleFlag} (hp : pos.Pseudo (.castle f)) :
    ∃ fac, b.readMove (SanText.castle (f = .wq ∨ f = .bq)).read = some fac ∧
      fac.ply = some (.castle f) := by
  have hside : b.side = f.color := h.side.trans hp.1.symm
  have hright : b.hasFlag f = true := (h.rights f).trans hp.2.1
  refine ⟨.castle f.kingHome f, ?_, if_pos rfl⟩
  cases f <;> simp [SanText.read, Board.readMove, Board.castleCall, hside, hright, CastleFlag.color]

/-- A piece move in SAN is read back if its origin is found. -/
theorem Sim.pieceCall_iff (h : Sim b pos) {src dst : Square} {p : Piece} {cap : Option Piece}
    {f r : Option (Fin 8)} (hc : pos.Carries src dst p cap) :
    (∃ fac, b.pieceCall p f r cap.isSome dst = some fac ∧ fac.ply = some (.move src dst p cap)) ↔
      b.origin p f r dst = some src := by
  have hdst := h.pieceAt_dst hc
  unfold Board.pieceCall
  cases ho : b.origin p f r dst with
  | none => simp
  | some sq =>
    simp only [Option.some.injEq]
    constructor
    · rintro ⟨fac, hfac, hply⟩
      split at hfac
      · cases hfac
      split at hfac
      · cases hfac
      split at hfac
      · cases hfac
      split at hfac
      · cases hfac
        rename_i hn
        obtain ⟨q, hq⟩ := Option.ne_none_iff_exists'.mp hn
        rw [hq] at hply
        cases hply
        rfl
      · cases hfac
        cases hply
        rfl
    · rintro rfl
      rw [h.pieceAt_of_man hc.1, hdst]
      cases cap with
      | none => exact ⟨.normal sq dst (some p), by simp, rfl⟩
      | some q => exact ⟨.capture sq dst (some p) (some q), by simp, rfl⟩

/-- **SAN of a move that names its origin, or needs none.** -/
theorem Sim.readsSan_of_pawn (h : Sim b pos) (hs : Sane pos) (hl : pos.Legal ply)
    (hp : ply.piece = .pawn) : b.parseMove1 (ply.encode.san b 0) = ply.encode := by
  rw [h.parseMove1_eq_iff hs hl, Ply.scanText_san, Ply.sanText_pawn hp]
  cases hcap : ply.captured.isSome with
  | true => exact h.captureCall_of_legal hs hl.1 hp hcap
  | false => exact h.pushCall_of_legal hs hl.1 hp hcap

theorem Sim.readsSan_castle (h : Sim b pos) (hs : Sane pos) {f : CastleFlag}
    (hl : pos.Legal (.castle f)) :
    b.parseMove1 ((Ply.castle f).encode.san b 0) = (Ply.castle f).encode := by
  rw [h.parseMove1_eq_iff hs hl, Ply.scanText_san]
  exact h.castleCall_of_legal hl.1

/-- **SAN of a piece move is read back exactly if the parser takes its origin**, on any board. -/
theorem Sim.readsSan_move_iff (h : Sim b pos) (hs : Sane pos) {src dst : Square} {p : Piece}
    {cap : Option Piece} (hl : pos.Legal (.move src dst p cap)) (hp : p ≠ .pawn) :
    b.parseMove1 ((Ply.move src dst p cap).encode.san b 0) = (Ply.move src dst p cap).encode ↔
      b.origin p (if (Ply.move src dst p cap).encode.disambFile b 0 then some (filIdx src) else none)
        (if (Ply.move src dst p cap).encode.disambRank b 0 then some (rnkIdx src) else none) dst =
          some src := by
  rw [h.parseMove1_eq_iff hs hl, Ply.scanText_san, Ply.sanText_piece hp]
  have hmark : (cap.isSome && decide (0 ≠ 2)) = cap.isSome := by simp
  rw [hmark]
  exact h.pieceCall_iff hl.1.1

/-! ### Coordinates -/

theorem Sim.coordinateCastle_castle (h : Sim b pos) {f : CastleFlag} (hp : pos.Pseudo (.castle f)) :
    b.coordinateCastle f.kingHome f.kingDest = some f := by
  have hside : b.side = f.color := h.side.trans hp.1.symm
  have hright : b.hasFlag f = true := (h.rights f).trans hp.2.1
  unfold Board.coordinateCastle
  have hq : c1 ≠ g1 ∧ c8 ≠ g8 := by decide
  cases f <;>
    simp [hside, hright, CastleFlag.color, CastleFlag.kingHome, CastleFlag.kingDest, hq.1, hq.2]

/-- A king that moves is not taken to castle. -/
theorem Sim.coordinateCastle_move (h : Sim b pos) (hp : pos.Pseudo ply)
    (hno : ply.isCastling = false) :
    (if b.pieceAt ply.src = some .king then b.coordinateCastle ply.src ply.dst else none) = none := by
  have hman := h.pieceAt_of_man hp.man_src
  cases ply with
  | castle f => cases hno
  | promote => exact if_neg (by rw [hman]; exact fun e => by cases e)
  | enpassant => exact if_neg (by rw [hman]; exact fun e => by cases e)
  | move src dst p cap =>
    by_cases hking : p = .king
    · subst hking
      cases hf : b.coordinateCastle src dst with
      | none =>
        show (if _ then b.coordinateCastle src dst else none) = none
        rw [hf, ite_self]
      | some f =>
        obtain ⟨rfl, rfl⟩ := coordinateCastle_eq_some hf
        have ht := hp.1.2.2
        rw [targets_piece (by decide)] at ht
        exact absurd ht (not_mem_reach_kingDest _ _ _)
    · refine if_neg ?_
      rw [hman]
      exact fun e => hking (Option.some.inj e)

/-- **Coordinates are read back unless they lead a piece to the en passant square.** -/
theorem Sim.readsStr_iff (h : Sim b pos) (hs : Sane pos) (hl : pos.Legal ply) :
    b.parseMove1 ply.encode.str = ply.encode ↔ ¬ pos.StrMissed ply := by
  rw [h.parseMove1_eq_iff hs hl, Ply.scanText_str]
  show (∃ fac, b.coordinateCall _ _ _ = some fac ∧ _) ↔ _
  unfold Board.coordinateCall
  cases hcas : ply.isCastling with
  | true =>
    cases ply with
    | castle f =>
      have hking : b.pieceAt (Ply.castle f).src = some .king := h.pieceAt_of_man hl.1.man_src
      have hf : b.coordinateCastle (Ply.castle f).src (Ply.castle f).dst = some f :=
        h.coordinateCastle_castle hl.1
      simp only [hking, if_true, hf]
      exact iff_of_true ⟨_, rfl, if_pos rfl⟩ (fun e => e)
    | _ => cases hcas
  | false =>
    simp only [h.coordinateCastle_move hl.1 hcas]
    cases ply with
    | castle f => cases hcas
    | enpassant src dst =>
      have hd : b.pieceAt dst = none := by
        rw [h.consistent.pieceAt_eq, (hs.ep dst hl.1.2.1).empty]
        rfl
      have hep : some dst = b.epsq := (h.ep.trans hl.1.2.1).symm
      refine iff_of_true ⟨.enpassant src dst, ?_, rfl⟩ (fun e => e)
      simp [Ply.promoted, Ply.dst, Ply.src, hd, ← hep]
    | promote src dst p cap =>
      have hd := h.pieceAt_dst hl.1.1
      have hq := promoLower_toLower hl.1.2.2
      refine iff_of_true ?_ (fun e => e)
      cases cap with
      | none => exact ⟨.promotion src dst (some p), by simp [Ply.promoted, Ply.dst, Ply.src, hd, hq], rfl⟩
      | some q =>
        exact ⟨.promotionCapture src dst (some p) (some q),
          by simp [Ply.promoted, Ply.dst, Ply.src, hd, hq], rfl⟩
    | move src dst p cap =>
      have hc : pos.Carries src dst p cap := hl.1.1
      have hd := h.pieceAt_dst hc
      have hp : b.pieceAt src = some p := h.pieceAt_of_man hc.1
      cases cap with
      | some q =>
        refine iff_of_true ⟨.capture src dst (some p) (some q), ?_, rfl⟩ ?_
        · simp [Ply.promoted, Ply.dst, Ply.src, hd, hp]
        · rintro ⟨_, he⟩
          exact h.ne_epsq hs hc (h.ep.trans he).symm
      | none =>
        by_cases he : some dst = b.epsq
        · refine iff_of_false ?_ (not_not.mpr ⟨?_, (he.trans h.ep).symm⟩)
          · rintro ⟨fac, hfac, hply⟩
            simp [Ply.promoted, Ply.dst, Ply.src, hd, ← he] at hfac
            subst hfac
            cases hply
          · rintro rfl
            exact hs.push_ne_ep hc (he.trans h.ep).symm
        · refine iff_of_true ⟨.normal src dst (some p), ?_, rfl⟩ ?_
          · simp [Ply.promoted, Ply.dst, Ply.src, hd, hp, he]
          · rintro ⟨_, hep⟩
            exact he (h.ep.trans hep).symm

end Calls

/-! ## On the boards of a game -/

/-- Another man of the kind reaches the square, and fits what has to be printed of the origin:
the file, if a man of the kind may move there from another file, the rank, if one may from
the same file. -/
def Rules.Position.Fits (pos : Position) (src dst : Square) (p : Piece) (cap : Option Piece)
    (c : Square) : Prop :=
  c ≠ src ∧ pos.man c = some (pos.side, p) ∧ dst ∈ reach pos.man pos.side p c ∧
    ∀ s, s ≠ src → pos.Legal (.move s dst p cap) →
      (fil s ≠ fil src → fil c = fil src) ∧ (fil s = fil src → rnk c = rnk src)

/-- A piece that shields its king steps towards it, and another of its kind, which may not
move to the square, fits what is printed. -/
def Rules.Position.SanMissed (pos : Position) : Ply → Prop
  | .move src dst p cap => p ≠ .pawn ∧ pos.Astray dst src ∧ ∃ c, pos.Fits src dst p cap c
  | _ => False

/-- Another man of the kind reaches the square, and fits what is printed of the origin: the file,
if a move from another file is listed, the rank, if one from the same file is. -/
def Board.Fits [Build] (b : Board) (src dst : Square) (p : Piece) (cap : Option Piece)
    (c : Square) : Prop :=
  c ≠ src ∧ b.abs.man c = some (b.side, p) ∧ dst ∈ reach b.abs.man b.side p c ∧
    ∀ s, s ≠ src → (Ply.move s dst p cap).encode ∈ b.legalMoves.moves →
      (fil s ≠ fil src → fil c = fil src) ∧ (fil s = fil src → rnk c = rnk src)

/-- Among the men that fit, `firstbit()` does not come to the origin before `c`. -/
def Board.Overtakes [Build] (b : Board) (src dst : Square) (p : Piece) (cap : Option Piece)
    (c : Square) : Prop :=
  ∀ bb : Bitboard, (∀ s, mem bb s = true ↔ s = src ∨ b.Fits src dst p cap s) →
    ¬ [src, c].Sublist (squares bb)

/-- Another piece fits what is printed, and the piece that moves shields its king and steps
towards it, or the other may go there too and comes first: its move is not listed then. -/
def Board.Misread [Build] (b : Board) : Ply → Prop
  | .move src dst p cap => p ≠ .pawn ∧ ∃ c, b.Fits src dst p cap c ∧
      (b.abs.Astray dst src ∨ ¬ b.abs.Astray dst c ∧ b.Overtakes src dst p cap c)
  | _ => False

section Games

variable [k : Build] {b : Board} {pos : Position} {src dst : Square} {p : Piece}
  {cap : Option Piece}

/-- The men that the ambiguity check finds. -/
theorem Sim.mem_rivals_iff (h : Sim b pos) (hs : Sane pos)
    (hl : pos.Legal (.move src dst p cap)) (hp : p ≠ .pawn) (mov : Move) :
    mov ∈ (Ply.move src dst p cap).encode.rivals b ↔
      ∃ s, s ≠ src ∧ mov = (Ply.move s dst p cap).encode ∧ mov ∈ b.legalMoves.moves := by
  rw [Move.rivals, List.mem_filter]
  simp only [Ply.ptype_encode, Ply.toSq_encode, Ply.fromSq_encode, Bool.and_eq_true,
    decide_eq_true_eq]
  constructor
  · rintro ⟨hmem, ⟨hpiece, hdst⟩, hne⟩
    obtain ⟨ply, rfl, hl'⟩ := h.of_mem_filterIllegal hs hmem
    simp only [Ply.ptype_encode, Ply.toSq_encode, Ply.fromSq_encode, Option.some.injEq]
      at hpiece hdst hne
    cases ply with
    | move s d q cap' =>
      cases hpiece
      cases hdst
      have hc : pos.Carries src dst p cap := hl.1.1
      have hc' : pos.Carries s dst p cap' := hl'.1.1
      obtain rfl : cap' = cap := by
        have e := hc'.2.1.symm.trans hc.2.1
        cases cap <;> cases cap' <;> first | rfl | (cases e; done) | skip
        exact congrArg Option.some (congrArg Prod.snd (Option.some.inj e))
      exact ⟨s, hne, rfl, hmem⟩
    | promote => exact absurd hpiece.symm hp
    | enpassant => exact absurd hpiece.symm hp
    | castle f =>
      cases hpiece
      exact absurd (hs.king_unique _ _ _ hl'.1.man_src hl.1.man_src) hne
  · rintro ⟨s, hne, rfl, hmem⟩
    refine ⟨hmem, ⟨?_, ?_⟩, ?_⟩
    · rw [Ply.ptype_encode]
      rfl
    · rw [Ply.toSq_encode]
      rfl
    · rw [Ply.fromSq_encode]
      exact hne

theorem Sim.disambFile_iff (h : Sim b pos) (hs : Sane pos)
    (hl : pos.Legal (.move src dst p cap)) (hp : p ≠ .pawn) :
    (Ply.move src dst p cap).encode.disambFile b 0 = true ↔
      ∃ s, s ≠ src ∧ (Ply.move s dst p cap).encode ∈ b.legalMoves.moves ∧ fil s ≠ fil src := by
  simp only [Move.disambFile, Bool.or_eq_true, decide_eq_true_eq, List.any_eq_true,
    h.mem_rivals_iff hs hl hp, OfNat.zero_ne_ofNat, or_false]
  constructor
  · rintro ⟨_, ⟨s, hne, rfl, hl'⟩, hf⟩
    exact ⟨s, hne, hl', by simpa [Ply.src] using hf⟩
  · rintro ⟨s, hne, hl', hf⟩
    exact ⟨_, ⟨s, hne, rfl, hl'⟩, by simpa [Ply.src] using hf⟩

theorem Sim.disambRank_iff (h : Sim b pos) (hs : Sane pos)
    (hl : pos.Legal (.move src dst p cap)) (hp : p ≠ .pawn) :
    (Ply.move src dst p cap).encode.disambRank b 0 = true ↔
      ∃ s, s ≠ src ∧ (Ply.move s dst p cap).encode ∈ b.legalMoves.moves ∧ fil s = fil src := by
  simp only [Move.disambRank, Bool.or_eq_true, Bool.and_eq_true, decide_eq_true_eq,
    List.any_eq_true, h.mem_rivals_iff hs hl hp, OfNat.zero_ne_ofNat, or_false]
  constructor
  · rintro ⟨_, ⟨s, hne, rfl, hl'⟩, hf, _⟩
    exact ⟨s, hne, hl', by simpa [Ply.src] using hf⟩
  · rintro ⟨s, hne, hl', hf⟩
    refine ⟨_, ⟨s, hne, rfl, hl'⟩, by simpa [Ply.src] using hf, ?_⟩
    simpa [Ply.src] using fun hr => hne (square_ext hf hr)

/-- **The men among which the parser looks for the origin.** -/
theorem Sim.mem_origins_printed (h : Sim b pos) (hs : Sane pos)
    (hl : pos.Legal (.move src dst p cap)) (hp : p ≠ .pawn) (c : Square) :
    mem (b.origins p
        (if (Ply.move src dst p cap).encode.disambFile b 0 then some (filIdx src) else none)
        (if (Ply.move src dst p cap).encode.disambRank b 0 then some (rnkIdx src) else none)
        dst) c = true ↔ c = src ∨ b.Fits src dst p cap c := by
  have hc : pos.Carries src dst p cap := hl.1.1
  have hr : dst ∈ reach pos.man pos.side p src := by
    have ht := hc.2.2
    rwa [targets_piece hp] at ht
  have hfil : (∀ i, (if (Ply.move src dst p cap).encode.disambFile b 0 then some (filIdx src)
      else none) = some i → filIdx c = i) ↔
      ((Ply.move src dst p cap).encode.disambFile b 0 = true → fil c = fil src) := by
    split <;> rename_i hd <;> simp [hd, filIdx]
  have hrnk : (∀ i, (if (Ply.move src dst p cap).encode.disambRank b 0 then some (rnkIdx src)
      else none) = some i → rnkIdx c = i) ↔
      ((Ply.move src dst p cap).encode.disambRank b 0 = true → rnk c = rnk src) := by
    split <;> rename_i hd <;> simp [hd, rnkIdx]
  have hside : b.side = pos.side := h.side
  rw [h.mem_origins hp, hfil, hrnk, h.disambFile_iff hs hl hp, h.disambRank_iff hs hl hp,
    Board.Fits, h.abs_eq, hside]
  constructor
  · rintro ⟨hm, hreach, h1, h2⟩
    refine or_iff_not_imp_left.mpr fun hne => ⟨hne, hm, hreach, fun s hs' hlist => ⟨?_, ?_⟩⟩
    · exact fun hd => h1 ⟨s, hs', hlist, hd⟩
    · exact fun hd => h2 ⟨s, hs', hlist, hd⟩
  · rintro (rfl | ⟨_, hm, hreach, hall⟩)
    · exact ⟨hc.1, hr, fun _ => rfl, fun _ => rfl⟩
    · refine ⟨hm, hreach, ?_, ?_⟩
      · rintro ⟨s, hs', hlist, hd⟩
        exact (hall s hs' hlist).1 hd
      · rintro ⟨s, hs', hlist, hd⟩
        exact (hall s hs' hlist).2 hd

/-- **When a legal move is read back from its SAN**, on any board. -/
theorem Sim.readsSan_iff_not_misread (h : Sim b pos) (hs : Sane pos) {ply : Ply}
    (hl : pos.Legal ply) :
    b.parseMove1 (ply.encode.san b 0) = ply.encode ↔ ¬ b.Misread ply := by
  cases ply with
  | promote => exact iff_of_true (h.readsSan_of_pawn hs hl rfl) (fun e => e)
  | enpassant => exact iff_of_true (h.readsSan_of_pawn hs hl rfl) (fun e => e)
  | castle f => exact iff_of_true (h.readsSan_castle hs hl) (fun e => e)
  | move src dst p cap =>
    by_cases hp : p = .pawn
    · exact iff_of_true (h.readsSan_of_pawn hs hl hp) (fun e => e.1 hp)
    rw [h.readsSan_move_iff hs hl hp]
    have hfits := h.mem_origins_printed hs hl hp
    generalize (if (Ply.move src dst p cap).encode.disambFile b 0 then some (filIdx src)
      else none) = f at hfits ⊢
    generalize (if (Ply.move src dst p cap).encode.disambRank b 0 then some (rnkIdx src)
      else none) = r at hfits ⊢
    rw [h.origin_eq_some hs.toValid hp ((hfits src).mpr (Or.inl rfl)), Board.Misread, h.abs_eq]
    constructor
    · rintro hall ⟨_, c, hfit, hbad⟩
      obtain ⟨hsrc, hc⟩ := hall c ((hfits c).mpr (Or.inr hfit)) hfit.1
      rcases hbad with hast | ⟨hno, hover⟩
      · exact hsrc hast
      · exact hover _ hfits (hc.resolve_left hno)
    · intro hno c hmem hne
      have hfit := ((hfits c).mp hmem).resolve_left hne
      refine ⟨fun hast => hno ⟨hp, c, hfit, Or.inl hast⟩, ?_⟩
      by_contra hc
      obtain ⟨hstray, hlate⟩ := not_or.mp hc
      refine hno ⟨hp, c, hfit, Or.inr ⟨hstray, fun bb hbb => ?_⟩⟩
      have hsame : bb = b.origins p f r dst := by
        apply WordSet.ext
        intro s
        rw [Bool.eq_iff_iff, hbb, hfits]
      rw [hsame]
      exact hlate

/-- A man that may move there does not fit what is printed, if its move is listed. -/
theorem Sim.astray_of_fits (h : Sim b pos) (hs : Sane pos) (hm : MaterialOk pos)
    (hl : pos.Legal (.move src dst p cap)) (hp : p ≠ .pawn) {c : Square}
    (hfit : b.Fits src dst p cap c) : pos.Astray dst c := by
  obtain ⟨hne, hman, hreach, hall⟩ := hfit
  rw [h.abs_eq, h.side] at hman hreach
  have hking : p ≠ .king := by
    rintro rfl
    exact hne (hs.king_unique _ _ _ hman hl.1.1.1)
  by_contra hno
  have hl' := hl.like hs hp hking hman hreach hno
  obtain ⟨h1, h2⟩ := hall c hne ((h.mem_legalMoves hs hm _).mpr ⟨_, rfl, hl'⟩)
  have hfil : fil c = fil src := by
    by_contra hd
    exact hd (h1 hd)
  exact hne (square_ext hfil (h2 hfil))

/-- **With the men of a game** the list is complete, and only a shield is missed. -/
theorem Sim.misread_iff (h : Sim b pos) (hs : Sane pos) (hm : MaterialOk pos) {ply : Ply}
    (hl : pos.Legal ply) : b.Misread ply ↔ pos.SanMissed ply := by
  cases ply with
  | promote => exact Iff.rfl
  | enpassant => exact Iff.rfl
  | castle f => exact Iff.rfl
  | move src dst p cap =>
    have hlist : ∀ s, (Ply.move s dst p cap).encode ∈ b.legalMoves.moves ↔
        pos.Legal (.move s dst p cap) := by
      intro s
      rw [h.mem_legalMoves hs hm]
      constructor
      · rintro ⟨ply, e, hl'⟩
        rwa [Ply.encode_injective e]
      · intro hl'
        exact ⟨_, rfl, hl'⟩
    have hfits : ∀ c, b.Fits src dst p cap c ↔ pos.Fits src dst p cap c := by
      intro c
      have hside : b.side = pos.side := h.side
      simp only [Board.Fits, Position.Fits, hlist, h.abs_eq, hside]
    simp only [Board.Misread, Position.SanMissed, h.abs_eq]
    refine and_congr_right fun hp => ?_
    constructor
    · rintro ⟨c, hfit, hbad⟩
      refine ⟨hbad.resolve_right fun hbad => ?_, c, (hfits c).mp hfit⟩
      exact hbad.1 (h.astray_of_fits hs hm hl hp hfit)
    · rintro ⟨hast, c, hfit⟩
      exact ⟨c, (hfits c).mpr hfit, Or.inl hast⟩

/-- **When a legal move is read back from its SAN**, with the men of a game. -/
theorem Sim.readsSan_iff (h : Sim b pos) (hs : Sane pos) (hm : MaterialOk pos) {ply : Ply}
    (hl : pos.Legal ply) :
    b.parseMove1 (ply.encode.san b 0) = ply.encode ↔ ¬ pos.SanMissed ply := by
  rw [h.readsSan_iff_not_misread hs hl, h.misread_iff hs hm hl]

/-- **When the fast parser undoes both printers**, on every board of a game. -/
theorem reached_readsBack_iff (h : Reached b) {mov : Move} (hmov : mov ∈ b.legalMoves.moves) :
    (b.parseMove1 (mov.san b 0) = mov ∧ b.parseMove1 mov.str = mov) ↔
      ∃ ply, ply.encode = mov ∧ ¬ b.abs.SanMissed ply ∧ ¬ b.abs.StrMissed ply := by
  obtain ⟨hsim, hp⟩ := h.sim_abs
  have hs := hp.sane
  obtain ⟨ply, rfl, hl⟩ := (hsim.mem_legalMoves hs hp.materialOk _).mp hmov
  rw [hsim.readsSan_iff hs hp.materialOk hl, hsim.readsStr_iff hs hl]
  constructor
  · intro hno
    exact ⟨ply, rfl, hno⟩
  · rintro ⟨ply', e, hno⟩
    rwa [Ply.encode_injective e] at hno

end Games

/-- 1. Nf3 e6 2. a3 Bc5 3. e4: the bishop may go to the square that the pawn has passed. -/
def passedByPawn : List Ply :=
  [.move 6 21 .knight none, .move 52 44 .pawn none, .move 8 16 .pawn none,
    .move 61 34 .bishop none, .move 12 28 .pawn none]

/-- 1. e4 d5 2. d4 dxe4 3. a4 e5 4. Ra3 exd4 5. Rc3 Bb4 6. h4 Qe7 7. Rh3 a6 8. Re3 a5
9. Rxe4 h6: both rooks are pinned, and the one on `e4` may step back to `e3`. -/
def bothPinned : List Ply :=
  [.move 12 28 .pawn none, .move 51 35 .pawn none, .move 11 27 .pawn none,
    .move 35 28 .pawn (some .pawn), .move 8 24 .pawn none, .move 52 36 .pawn none,
    .move 0 16 .rook none, .move 36 27 .pawn (some .pawn), .move 16 18 .rook none,
    .move 61 25 .bishop none, .move 15 31 .pawn none, .move 59 52 .queen none,
    .move 7 23 .rook none, .move 48 40 .pawn none, .move 23 20 .rook none,
    .move 40 32 .pawn none, .move 20 28 .rook (some .pawn), .move 55 47 .pawn none]

theorem line_bothPinned : Line Rules.opening bothPinned := by decide +kernel

theorem sanMissed_bothPinned :
    (bothPinned.foldl Position.apply Rules.opening).SanMissed (.move 28 20 .rook none) := by
  have hline : Aligned (slideDirs .queen) (52 : Square) e1 :=
    ⟨(0, -1), by decide, 6, by decide, by decide, by decide⟩
  refine ⟨by decide, ⟨52, e1, ⟨?_, ⟨.queen, ?_, hline⟩, ?_, ⟨.rook, ?_⟩, ?_⟩, ?_⟩, 18, ?_, ?_, ?_, ?_⟩
  all_goals decide +kernel

/-- Neither printer is undone on every board of a game. -/
theorem parseMove1_misses : ∃ b b', @Reached sampleBuild b ∧ @Reached sampleBuild b' ∧
    (∃ mov ∈ (@Board.legalMoves sampleBuild b).moves,
      @Board.parseMove1 sampleBuild b (@Move.san mov sampleBuild b 0) ≠ mov) ∧
    ∃ mov ∈ (@Board.legalMoves sampleBuild b').moves,
      @Board.parseMove1 sampleBuild b' mov.str ≠ mov := by
  let _ := sampleBuild
  obtain ⟨b, hb, hsim, hp⟩ := reached_line line_bothPinned
  obtain ⟨b', hb', hsim', hp'⟩ := reached_line (l := passedByPawn) (by decide +kernel)
  have hl : (bothPinned.foldl Position.apply Rules.opening).Legal (.move 28 20 .rook none) := by
    decide +kernel
  have hl' : (passedByPawn.foldl Position.apply Rules.opening).Legal (.move 34 20 .bishop none) := by
    decide +kernel
  refine ⟨b, b', hb, hb', ⟨_, (hsim.mem_legalMoves hp.sane hp.materialOk _).mpr ⟨_, rfl, hl⟩, ?_⟩,
    ⟨_, (hsim'.mem_legalMoves hp'.sane hp'.materialOk _).mpr ⟨_, rfl, hl'⟩, ?_⟩⟩
  · rw [ne_eq, hsim.readsSan_iff hp.sane hp.materialOk hl, not_not]
    exact sanMissed_bothPinned
  · rw [ne_eq, hsim'.readsStr_iff hp'.sane hl', not_not]
    exact ⟨by decide, by decide +kernel⟩

/-- In the opening position the knight's move is read back from both texts. -/
theorem opening_readsBack : ∃ b, @Reached sampleBuild b ∧
    @Board.parseMove1 sampleBuild b
      (@Move.san (Ply.encode (.move g1 (mkSquare 2 5) .knight none)) sampleBuild b 0) =
        Ply.encode (.move g1 (mkSquare 2 5) .knight none) := by
  let _ := sampleBuild
  obtain ⟨b, hb, hsim⟩ := parseFen_opening
  have hl : Rules.opening.Legal (.move g1 (mkSquare 2 5) .knight none) := by decide +kernel
  have hmem := (hsim.mem_legalMoves sane_opening materialOk_opening _).mpr ⟨_, rfl, hl⟩
  refine ⟨b, .opening hb, ((reached_readsBack_iff (.opening hb) hmem).mpr ⟨_, rfl, ?_, ?_⟩).1⟩
  · rw [hsim.abs_eq]
    rintro ⟨_, ⟨s, king, hsh, _⟩, _⟩
    have hking : king = e1 := sane_opening.king_unique _ _ _ hsh.king rfl
    subst hking
    have hno : ∀ s, Between s e1 g1 → ∀ p, Rules.opening.man s ≠ some (.black, p) := by
      decide +kernel
    obtain ⟨p, hp, _⟩ := hsh.slider
    exact hno s hsh.between p hp
  · rw [hsim.abs_eq]
    exact fun e => by cases e.2

end HoiChess.Chess
