import HoiChess.Chess.Evasion
import HoiChess.Chess.Exact
import HoiChess.Chess.ReadSan

/-!
# Printed moves are unambiguous

Origin, destination and new piece make out a move (`Position.Pseudo.ext`), and so does
what `san` says of it in any of its forms (`Sim.sanText_injective`): the ambiguity check
looks at all legal moves of like men to the square.  No text is printed for two legal moves,
and `parse_move` finds the move that a text was printed for (`reached_unambiguous`).
-/

namespace HoiChess.Chess

open WordSet Grid Rules

namespace Rules

variable {pos : Position}

theorem not_mem_reach_kingDest (man : Placement) (c : Color) (f : CastleFlag) :
    f.kingDest ∉ reach man c .king f.kingHome := by
  rw [mem_reach_leap rfl, ← mem_kingTable_iff]
  cases f <;> decide

/-- A pawn that captures on a square from a given file stands on one square. -/
theorem pawn_origin_unique {man : Placement} {c : Color} {s s' t : Square}
    (h : t ∈ reach man c .pawn s) (h' : t ∈ reach man c .pawn s') (hf : fil s = fil s') : s = s' := by
  have ha := (pawn_reach_coords h).2
  have ha' := (pawn_reach_coords h').2
  refine square_ext hf ?_
  cases c <;> simp only [Ahead] at ha ha' <;> omega

/-- A pawn changes its file when it captures and only then. -/
theorem pawn_targets_file {man : Placement} {c : Color} {s t : Square} {capturing : Bool}
    (h : t ∈ targets man c .pawn capturing s) : fil t ≠ fil s ↔ capturing = true := by
  cases capturing with
  | false =>
    rw [targets_push] at h
    have hf : fil t = fil s := by
      rcases mem_pushes.mp h with ⟨ha, _⟩ | ⟨_, ha, _⟩ <;> exact (along_forward ha).1
    simp [hf]
  | true =>
    rw [targets_capture] at h
    have := (pawn_reach_coords h).1
    simp only [iff_true]
    omega

/-- The move of a pawn, with its capture. -/
theorem Position.Pseudo.pawn_targets {ply : Ply} (h : pos.Pseudo ply) (hp : ply.piece = .pawn) :
    ply.dst ∈ targets pos.man pos.side .pawn ply.captured.isSome ply.src := by
  cases ply with
  | move src dst p cap =>
    cases hp
    exact h.1.2.2
  | promote src dst p cap => exact h.1.2.2
  | enpassant src dst =>
    show dst ∈ targets _ _ _ true src
    rw [targets_capture]
    exact h.2.2
  | castle f => cases hp

theorem Position.Pseudo.pawn_carries {ply : Ply} (h : pos.Pseudo ply) (hp : ply.piece = .pawn)
    (hc : ply.captured.isSome = false) : pos.Carries ply.src ply.dst .pawn none := by
  cases ply with
  | move src dst p cap =>
    cases hp
    cases cap with
    | none => exact h.1
    | some q => cases hc
  | promote src dst p cap =>
    cases cap with
    | none => exact h.1
    | some q => cases hc
  | enpassant => cases hc
  | castle => cases hp

/-- **Origin, destination and new piece make out a move.** -/
theorem Position.Pseudo.ext (hs : Sane pos) {ply ply' : Ply} (h : pos.Pseudo ply)
    (h' : pos.Pseudo ply') (hsrc : ply.src = ply'.src) (hdst : ply.dst = ply'.dst)
    (hpromo : ply.promoted = ply'.promoted) : ply = ply' := by
  have hpiece : ply.piece = ply'.piece := by
    have e := h.man_src.symm.trans (hsrc ▸ h'.man_src)
    exact congrArg Prod.snd (Option.some.inj e)
  have hep : ∀ {src dst p cap}, pos.Pseudo (.move src dst p cap) → ¬ (p = .pawn ∧
      pos.Pseudo (.enpassant src dst)) := by
    rintro src dst p cap hm ⟨rfl, he⟩
    have hc : pos.Carries src dst .pawn cap := hm.1
    have hnone : cap = none := hc.cap_of_none (hs.ep dst he.2.1).empty
    subst hnone
    have h1 := pawn_targets_file hc.2.2
    have h2 := pawn_targets_file (he.pawn_targets rfl)
    exact absurd (h1.mp (h2.mpr rfl)) Bool.false_ne_true
  have hcastle : ∀ {f : CastleFlag} {src dst cap}, pos.Pseudo (.move src dst .king cap) →
      ¬ (f.kingHome = src ∧ f.kingDest = dst) := by
    rintro f src dst cap hm ⟨rfl, rfl⟩
    have ht := hm.1.2.2
    rw [targets_piece (by decide)] at ht
    exact not_mem_reach_kingDest _ _ _ ht
  cases ply with
  | move src dst p cap =>
    cases ply' with
    | move src' dst' p' cap' =>
      cases hsrc
      cases hdst
      obtain ⟨rfl, rfl⟩ := Factory.cap_unique h.1 h'.1
      rfl
    | promote => cases hpromo
    | enpassant src' dst' =>
      cases hsrc
      cases hdst
      exact absurd ⟨hpiece, h'⟩ (hep h)
    | castle f =>
      cases hpiece
      exact absurd ⟨hsrc.symm, hdst.symm⟩ (hcastle h)
  | promote src dst p cap =>
    cases ply' with
    | promote src' dst' p' cap' =>
      cases hsrc
      cases hdst
      cases hpromo
      obtain ⟨_, rfl⟩ := Factory.cap_unique h.1 h'.1
      rfl
    | _ => cases hpromo
  | enpassant src dst =>
    cases ply' with
    | move src' dst' p' cap' =>
      cases hsrc
      cases hdst
      exact absurd ⟨hpiece.symm, h⟩ (hep h')
    | promote => cases hpromo
    | enpassant =>
      cases hsrc
      cases hdst
      rfl
    | castle => cases hpiece
  | castle f =>
    cases ply' with
    | move src' dst' p' cap' =>
      cases hpiece
      exact absurd ⟨hsrc, hdst⟩ (hcastle h')
    | promote => cases hpromo
    | enpassant => cases hpiece
    | castle g =>
      have hdst : f.kingDest = g.kingDest := hdst
      cases f <;> cases g <;> first | rfl | exact absurd hdst (by decide)

end Rules

/-! ## What `san` says of a move -/

namespace Rules.Ply

variable [Build] {ply : Ply} {b : Board} {nonstd : Nat}

theorem sanText_pawn (h : ply.piece = .pawn) :
    ply.sanText b nonstd = .pawn (if ply.captured.isSome then some (filIdx ply.src) else none)
      (ply.captured.isSome && nonstd ≠ 2) ply.dst ply.promoted := by
  cases ply with
  | move src dst p cap =>
    cases h
    rfl
  | promote src dst p cap => rfl
  | enpassant src dst => rfl
  | castle f => cases h

theorem sanText_piece {src dst : Square} {p : Piece} {cap : Option Piece}
    (h : (Ply.move src dst p cap).piece ≠ .pawn) :
    (Ply.move src dst p cap).sanText b nonstd =
      .piece p (if (Ply.move src dst p cap).encode.disambFile b nonstd then some (filIdx src) else none)
        (if (Ply.move src dst p cap).encode.disambRank b nonstd then some (rnkIdx src) else none)
        (cap.isSome && nonstd ≠ 2) dst := if_neg h

theorem sanText_regular : (ply.sanText b nonstd).Regular := by
  by_cases hp : ply.piece = .pawn
  · rw [sanText_pawn hp]
    show (_ && _) = true → _
    intro hc
    rw [if_pos (Bool.and_eq_true_iff.mp hc).1]
    rfl
  · cases ply with
    | move src dst p cap =>
      rw [sanText_piece hp]
      exact hp
    | promote => exact absurd rfl hp
    | enpassant => exact absurd rfl hp
    | castle => trivial

end Rules.Ply

theorem Ply.promoted_mem {pos : Position} {ply : Ply} (hp : pos.Pseudo ply) {q : Piece}
    (hq : ply.promoted = some q) :
    q ∈ promotionPieces := by
  cases ply with
  | promote src dst p cap =>
    cases hq
    exact hp.2.2
  | _ => cases hq

theorem Ply.scanText_str (ply : Ply) : scanText ply.encode.str =
    .coordinate ply.src ply.dst (ply.promoted.map fun p => (pieceLetter p).toLower) := by
  rw [Ply.str_encode]
  exact scanText_coordinate _ _ _

/-- No text in SAN is read as coordinates. -/
theorem SanText.read_ne_coordinate (t : SanText) (src dst : Square) (suffix : Option Char) :
    t.read ≠ .coordinate src dst suffix := by
  intro h
  cases t with
  | castle long => cases long <;> cases h
  | pawn f capture _ _ => cases f <;> cases capture <;> cases h
  | piece => cases h

/-- **Coordinates make out a legal move.** -/
theorem Rules.Position.Pseudo.str_injective {pos : Position} {ply ply' : Ply} (hs : Sane pos)
    (hp : pos.Pseudo ply) (hp' : pos.Pseudo ply') (he : ply.encode.str = ply'.encode.str) : ply = ply' := by
  have hread := congrArg scanText he
  rw [Ply.scanText_str, Ply.scanText_str, MoveText.coordinate.injEq] at hread
  obtain ⟨hsrc, hdst, hpromo⟩ := hread
  refine hp.ext hs hp' hsrc hdst ?_
  cases hq : ply.promoted with
  | none =>
    cases hq' : ply'.promoted with
    | none => rfl
    | some q' => rw [hq, hq'] at hpromo; cases hpromo
  | some q =>
    cases hq' : ply'.promoted with
    | none => rw [hq, hq'] at hpromo; cases hpromo
    | some q' =>
      rw [hq, hq'] at hpromo
      have e := congrArg promoLower (Option.some.inj hpromo)
      rwa [promoLower_toLower (Ply.promoted_mem hp hq),
        promoLower_toLower (Ply.promoted_mem hp' hq')] at e

section Unambiguous

variable [k : Build] {b : Board} {pos : Position} {ply ply' : Ply}

theorem Sim.mem_rivals (h : Sim b pos) (hs : Sane pos) (hm : MaterialOk pos) (hl' : pos.Legal ply')
    (hp : ply'.piece = ply.piece) (hd : ply'.dst = ply.dst) (hne : ply'.src ≠ ply.src) :
    ply'.encode ∈ ply.encode.rivals b := by
  rw [Move.rivals, List.mem_filter]
  refine ⟨(h.mem_legalMoves hs hm _).mpr ⟨ply', rfl, hl'⟩, ?_⟩
  simp [hp, hd, hne]

/-- A like man that goes to the square from another file makes the file necessary. -/
theorem Sim.disambFile_of_rival (h : Sim b pos) (hs : Sane pos) (hm : MaterialOk pos)
    (ply : Ply) (hl' : pos.Legal ply') (hp : ply'.piece = ply.piece) (hd : ply'.dst = ply.dst)
    (hf : fil ply'.src ≠ fil ply.src) {nonstd : Nat} : ply.encode.disambFile b nonstd = true := by
  have hr := h.mem_rivals hs hm hl' hp hd (fun e => hf (congrArg fil e))
  have hany : ((ply.encode.rivals b).any fun m => fil m.fromSq ≠ fil ply.encode.fromSq) = true :=
    List.any_eq_true.mpr ⟨_, hr, by simp [hf]⟩
  rw [Move.disambFile, hany]
  rfl

/-- One from the same file and another rank makes the rank necessary. -/
theorem Sim.disambRank_of_rival (h : Sim b pos) (hs : Sane pos) (hm : MaterialOk pos)
    (ply : Ply) (hl' : pos.Legal ply') (hp : ply'.piece = ply.piece) (hd : ply'.dst = ply.dst)
    (hf : fil ply'.src = fil ply.src) (hrnk : rnk ply'.src ≠ rnk ply.src) {nonstd : Nat} :
    ply.encode.disambRank b nonstd = true := by
  have hr := h.mem_rivals hs hm hl' hp hd (fun e => hrnk (congrArg rnk e))
  have hany : ((ply.encode.rivals b).any fun m =>
      fil m.fromSq = fil ply.encode.fromSq && rnk m.fromSq ≠ rnk ply.encode.fromSq) = true :=
    List.any_eq_true.mpr ⟨_, hr, by simp [hf, hrnk]⟩
  rw [Move.disambRank, hany]
  rfl

/-- Two advances of pawns to one square are one. -/
theorem Sim.push_origin_unique (h : Sim b pos) (hv : Valid pos) {src src' dst : Square}
    (hc : pos.Carries src dst .pawn none) (hc' : pos.Carries src' dst .pawn none) : src = src' := by
  obtain ⟨r, hr, e⟩ := h.pushOrigin hv hc
  obtain ⟨r', hr', e'⟩ := h.pushOrigin hv hc'
  obtain rfl := Option.some.inj (hr.symm.trans hr')
  exact e.symm.trans e'

/-- **What `san` says makes out a legal move, in whatever form.** -/
theorem Sim.sanText_injective (h : Sim b pos) (hs : Sane pos) (hm : MaterialOk pos)
    (hl : pos.Legal ply) (hl' : pos.Legal ply') {j j' : Nat}
    (he : ply.sanText b j = ply'.sanText b j') : ply = ply' := by
  by_cases hp : ply.piece = .pawn
  · by_cases hp' : ply'.piece = .pawn
    · rw [Ply.sanText_pawn hp, Ply.sanText_pawn hp', SanText.pawn.injEq] at he
      obtain ⟨hf, _, hdst, hpromo⟩ := he
      refine hl.1.ext hs hl'.1 ?_ hdst hpromo
      have ht := hl.1.pawn_targets hp
      have ht' := hl'.1.pawn_targets hp'
      cases hc : ply.captured.isSome with
      | true =>
        cases hc' : ply'.captured.isSome with
        | false =>
          rw [hc, hc'] at hf
          cases hf
        | true =>
          rw [hc, targets_capture] at ht
          rw [hc', targets_capture, ← hdst] at ht'
          rw [hc, hc'] at hf
          exact pawn_origin_unique ht ht' (congrArg Fin.val (Option.some.inj hf))
      | false =>
        cases hc' : ply'.captured.isSome with
        | true =>
          rw [hc, hc'] at hf
          cases hf
        | false =>
          have hcar' := hl'.1.pawn_carries hp' hc'
          rw [← hdst] at hcar'
          exact h.push_origin_unique hs.toValid (hl.1.pawn_carries hp hc) hcar'
    · cases ply' with
      | move => rw [Ply.sanText_pawn hp, Ply.sanText_piece hp'] at he; cases he
      | promote => exact absurd rfl hp'
      | enpassant => exact absurd rfl hp'
      | castle => rw [Ply.sanText_pawn hp] at he; cases he
  · by_cases hp' : ply'.piece = .pawn
    · rw [Ply.sanText_pawn hp'] at he
      cases ply with
      | move => rw [Ply.sanText_piece hp] at he; cases he
      | promote => exact absurd rfl hp
      | enpassant => exact absurd rfl hp
      | castle => cases he
    · cases ply with
      | promote => exact absurd rfl hp
      | enpassant => exact absurd rfl hp
      | castle f =>
        cases ply' with
        | promote => exact absurd rfl hp'
        | enpassant => exact absurd rfl hp'
        | move =>
          rw [Ply.sanText_piece hp'] at he
          cases he
        | castle g =>
          have hcol : f.color = g.color := hl.1.1.trans hl'.1.1.symm
          have hlong : decide (f = .wq ∨ f = .bq) = decide (g = .wq ∨ g = .bq) := SanText.castle.inj he
          cases f <;> cases g <;> first | rfl | exact absurd hcol (by decide) | exact absurd hlong (by decide)
      | move src dst p cap =>
        cases ply' with
        | promote => exact absurd rfl hp'
        | enpassant => exact absurd rfl hp'
        | castle =>
          rw [Ply.sanText_piece hp] at he
          cases he
        | move src' dst' p' cap' =>
          rw [Ply.sanText_piece hp, Ply.sanText_piece hp', SanText.piece.injEq] at he
          obtain ⟨rfl, hf, hr, _, rfl⟩ := he
          refine hl.1.ext hs hl'.1 ?_ rfl rfl
          by_cases hfil : fil src = fil src'
          · refine square_ext hfil (by_contra fun hrnk => ?_)
            have hd : (Ply.move src dst p cap).encode.disambRank b j = true :=
              h.disambRank_of_rival hs hm (.move src dst p cap) hl' rfl rfl hfil.symm (Ne.symm hrnk)
            have hd' : (Ply.move src' dst p cap').encode.disambRank b j' = true :=
              h.disambRank_of_rival hs hm (.move src' dst p cap') hl rfl rfl hfil hrnk
            rw [if_pos hd, if_pos hd', Option.some.injEq] at hr
            exact hrnk (congrArg Fin.val hr)
          · have hd : (Ply.move src dst p cap).encode.disambFile b j = true :=
              h.disambFile_of_rival hs hm (.move src dst p cap) hl' rfl rfl (Ne.symm hfil)
            have hd' : (Ply.move src' dst p cap').encode.disambFile b j' = true :=
              h.disambFile_of_rival hs hm (.move src' dst p cap') hl rfl rfl hfil
            rw [if_pos hd, if_pos hd', Option.some.injEq] at hf
            exact absurd (congrArg Fin.val hf) hfil

/-! ## `parse_move` -/

theorem Ply.scanText_san (ply : Ply) (b : Board) (j : Nat) :
    scanText (ply.encode.san b j) = (ply.sanText b j).read := by
  rw [Ply.san_encode]
  exact scanText_chars (sanCheck_mem _ _ _) Ply.sanText_regular

/-- The texts that `parse_move` takes for a move. -/
def Move.Texts (mov : Move) (b : Board) (s : List Char) : Prop :=
  s = mov.str ∨ ∃ j ≤ 5, s = mov.san b j

theorem Move.texts_iff (mov : Move) (b : Board) (s : List Char) :
    mov.Texts b s ↔ (s = mov.str || s = mov.san b 0 ||
      [1, 2, 3, 4, 5].any fun j => s = mov.san b j) = true := by
  simp only [Move.Texts, Bool.or_eq_true, decide_eq_true_eq, List.any_eq_true, or_assoc]
  refine or_congr_right ⟨?_, ?_⟩
  · rintro ⟨j, hj, rfl⟩
    cases j with
    | zero => exact Or.inl rfl
    | succ j => exact Or.inr ⟨j + 1, by simp; omega, rfl⟩
  · rintro (rfl | ⟨j, hj, rfl⟩)
    · exact ⟨0, by omega, rfl⟩
    · refine ⟨j, ?_, rfl⟩
      simp only [List.mem_cons, List.not_mem_nil, or_false] at hj
      omega

/-- **No text is taken for two legal moves.** -/
theorem Sim.texts_injective (h : Sim b pos) (hs : Sane pos) (hm : MaterialOk pos)
    (hl : pos.Legal ply) (hl' : pos.Legal ply') {s : List Char}
    (ht : ply.encode.Texts b s) (ht' : ply'.encode.Texts b s) : ply = ply' := by
  have hmixed : ∀ {p q : Ply} {j}, p.encode.str ≠ q.encode.san b j := by
    intro p q j e
    have hread := congrArg scanText e
    rw [Ply.scanText_str, Ply.scanText_san] at hread
    exact SanText.read_ne_coordinate _ _ _ _ hread.symm
  rcases ht with rfl | ⟨j, _, rfl⟩
  · rcases ht' with e | ⟨j', _, e⟩
    · exact hl.1.str_injective hs hl'.1 e
    · exact absurd e hmixed
  · rcases ht' with e | ⟨j', _, e⟩
    · exact absurd e.symm hmixed
    · rw [Ply.san_encode, Ply.san_encode] at e
      exact h.sanText_injective hs hm hl hl'
        (SanText.chars_injective Ply.sanText_regular Ply.sanText_regular (sanCheck_mem _ _ _)
          (sanCheck_mem _ _ _) e)

/-- **`parse_move` finds the legal move that a text belongs to.** -/
theorem Sim.parseMove_of_texts (h : Sim b pos) (hs : Sane pos) (hm : MaterialOk pos)
    (hl : pos.Legal ply) {s : List Char} (ht : ply.encode.Texts b s) :
    b.parseMove s false = ply.encode := by
  have hmem : ply.encode ∈ b.legalMoves.moves := (h.mem_legalMoves hs hm _).mpr ⟨ply, rfl, hl⟩
  unfold Board.parseMove
  cases hf : b.legalMoves.moves.find? fun mov =>
      s = mov.str || s = mov.san b 0 || [1, 2, 3, 4, 5].any fun j => s = mov.san b j with
  | none => exact absurd ((Move.texts_iff _ b s).mp ht) (by simpa using List.find?_eq_none.mp hf _ hmem)
  | some mov =>
    obtain ⟨ply', rfl, hl'⟩ := (h.mem_legalMoves hs hm _).mp (List.mem_of_find?_eq_some hf)
    obtain rfl := h.texts_injective hs hm hl hl' ht
      ((Move.texts_iff _ b s).mpr (List.find?_some (p := fun mov : Move =>
        s = mov.str || s = mov.san b 0 || [1, 2, 3, 4, 5].any fun j => s = mov.san b j) hf))
    exact congrArg (Option.getD · Move.noMove) hf

/-- **SAN is unambiguous, and `parse_move` undoes every form of it, and coordinates.** -/
theorem reached_unambiguous (h : Reached b) :
    (∀ mov ∈ b.legalMoves.moves, ∀ mov' ∈ b.legalMoves.moves,
      mov.san b 0 = mov'.san b 0 → mov = mov') ∧
    ∀ mov ∈ b.legalMoves.moves, b.parseMove mov.str false = mov ∧
      ∀ j ≤ 5, b.parseMove (mov.san b j) false = mov := by
  obtain ⟨pos, hsim, hplayed⟩ := h.sim
  have hs := hplayed.sane
  have hm := hplayed.materialOk
  constructor
  · intro mov hmov mov' hmov' e
    obtain ⟨ply, rfl, hl⟩ := (hsim.mem_legalMoves hs hm _).mp hmov
    obtain ⟨ply', rfl, hl'⟩ := (hsim.mem_legalMoves hs hm _).mp hmov'
    exact congrArg Ply.encode (hsim.texts_injective hs hm hl hl' (Or.inr ⟨0, by omega, rfl⟩)
      (Or.inr ⟨0, by omega, e⟩))
  · intro mov hmov
    obtain ⟨ply, rfl, hl⟩ := (hsim.mem_legalMoves hs hm _).mp hmov
    exact ⟨hsim.parseMove_of_texts hs hm hl (Or.inl rfl),
      fun j hj => hsim.parseMove_of_texts hs hm hl (Or.inr ⟨j, hj, rfl⟩)⟩

end Unambiguous

/-- Both knights can go to d2. -/
example : (@Board.parseFen sampleBuild "4k3/8/8/8/8/5N2/8/1N2K3 w - - 0 1").holds (fun b =>
    @Move.san (Ply.encode (.move 1 11 .knight none)) sampleBuild b 0 == "Nbd2".toList) = true := by
  decide +kernel

/-- In the opening position `Nf3` is the move that prints so. -/
theorem opening_unambiguous : ∃ b, @Board.parseFen sampleBuild openingFen = .accepted b ∧
    @Board.parseMove sampleBuild b "Nf3".toList false =
      Ply.encode (.move g1 (mkSquare 2 5) .knight none) := by
  let _ := sampleBuild
  have hrun : (Board.parseFen openingFen).holds (fun b =>
      decide (Ply.encode (.move g1 (mkSquare 2 5) .knight none) ∈ b.legalMoves.moves ∧
        (Ply.encode (.move g1 (mkSquare 2 5) .knight none)).san b 0 = "Nf3".toList)) = true := by
    decide +kernel
  obtain ⟨b, hb, h⟩ := FenResult.holds_eq_true.mp hrun
  obtain ⟨hmem, hsan⟩ := of_decide_eq_true h
  exact ⟨b, hb, hsan ▸ ((reached_unambiguous (.opening hb)).2 _ hmem).2 0 (by decide)⟩

end HoiChess.Chess
