import HoiChess.Chess.Exact
import HoiChess.Lib.Run
import HoiChess.Common.Game
import HoiChess.Common.Mateless

/-!
# The material draw

`is_material_draw` accepts boards with nothing but kings and one knight, or
kings and bishops on squares of one shade.  Such men stay what they are when
the game goes on (`Feeble.apply`), and a king in check has a square next to it,
along its rank or file, that neither they nor the other king attack
(`Feeble.exists_legal`).  So no position ahead is a mate.
-/

namespace HoiChess

open WordSet Grid Chess Rules Run

namespace Chess.Rules

/-- One on the light squares, zero on the dark ones. -/
def shade (sq : Square) : Nat := (fil sq + rnk sq) % 2

/-- Two pieces of the same kind that can stand on the board together. -/
def Alike : Piece → Square → Square → Prop
  | .knight, s, t => s = t
  | _, s, t => shade s = shade t

/-- Besides the kings there are only pieces of the kind `q`, all of them alike. -/
structure FeebleOf (q : Piece) (man : Placement) : Prop where
  men : ∀ sq c p, man sq = some (c, p) → p = .king ∨ p = q
  alike : ∀ s t c d, man s = some (c, q) → man t = some (d, q) → Alike q s t

/-- The material that `is_material_draw` looks for. -/
def Feeble (man : Placement) : Prop := FeebleOf .knight man ∨ FeebleOf .bishop man

/-! ## How kings, knights and bishops change the shade -/

theorem shade_ne_of_orthogonal {s t : Square} {d : Dir} (hd : d ∈ rookDirs) (h : Along s d 1 t) :
    shade t ≠ shade s := by
  obtain ⟨hx, hy⟩ := h
  simp only [grid_x, grid_y] at hx hy
  unfold shade
  rcases rookDirs_cases hd with rfl | rfl | rfl | rfl <;> simp only at hx hy <;> omega

theorem shade_of_knight {man : Placement} {c : Color} {s t : Square}
    (h : t ∈ reach man c .knight s) : shade t ≠ shade s := by
  rcases (mem_reach.mp h).1 with ⟨d, hd, hx, hy⟩ | ⟨d, hd, _⟩
  · simp only [grid_x, grid_y] at hx hy
    unfold shade
    simp only [leapDirs, List.mem_cons, List.not_mem_nil, or_false] at hd
    rcases hd with rfl | rfl | rfl | rfl | rfl | rfl | rfl | rfl <;> simp only at hx hy <;> omega
  · cases hd

theorem shade_of_bishop {man : Placement} {c : Color} {s t : Square}
    (h : t ∈ reach man c .bishop s) : shade t = shade s := by
  rcases (mem_reach.mp h).1 with ⟨d, hd, _⟩ | ⟨d, hd, k, _, hx, hy⟩
  · cases hd
  · simp only [grid_x, grid_y] at hx hy
    unfold shade
    rcases bishopDirs_cases hd with rfl | rfl | rfl | rfl <;> simp only at hx hy <;> omega

/-- A king attacks the squares that are at most one file and one rank away. -/
theorem mem_reach_king {man : Placement} {c : Color} {s t : Square} :
    t ∈ reach man c .king s ↔
      s ≠ t ∧ (fil t ≤ fil s + 1 ∧ fil s ≤ fil t + 1) ∧ rnk t ≤ rnk s + 1 ∧ rnk s ≤ rnk t + 1 := by
  constructor
  · intro h
    refine ⟨ne_of_mem_reach h, ?_⟩
    rcases (mem_reach.mp h).1 with ⟨d, hd, hx, hy⟩ | ⟨d, hd, _⟩
    · obtain ⟨h1, h2, h3, h4, _⟩ := unit_bounds hd
      simp only [grid_x, grid_y] at hx hy
      omega
    · cases hd
  · rintro ⟨hne, hf, hr⟩
    have hdir : ((fil t : ℤ) - fil s, (rnk t : ℤ) - rnk s) ∈ kingDirs := by
      refine mem_kingDirs_of_bounds ⟨by omega, by omega⟩ ⟨by omega, by omega⟩ ?_
      by_contra hzero
      exact hne (square_ext (by omega) (by omega))
    have halong : Along s ((fil t : ℤ) - fil s, (rnk t : ℤ) - rnk s) 1 t :=
      ⟨by simp [grid_x], by simp [grid_y]⟩
    exact mem_reach_iff_slides.mpr (.inl ⟨_, hdir, halong⟩)

theorem exists_along_one {k : Square} {d : Dir} (hx : 0 ≤ (fil k : ℤ) + d.1 ∧ (fil k : ℤ) + d.1 < 8)
    (hy : 0 ≤ (rnk k : ℤ) + d.2 ∧ (rnk k : ℤ) + d.2 < 8) : ∃ n, Along k d 1 n := by
  obtain ⟨n, h1, h2⟩ := exists_cell (S := Square) hx hy
  exact ⟨n, by rw [h1, grid_x]; simp, by rw [h2, grid_y]; simp⟩

theorem exists_beside (k : Square) : ∃ d ∈ rookDirs, d.2 = 0 ∧ ∃ n, Along k d 1 n := by
  have hf := fil_lt k
  have hr := rnk_lt k
  rcases Nat.lt_or_ge (fil k) 7 with h | h
  · exact ⟨(1, 0), by decide, rfl, exists_along_one ⟨by omega, by omega⟩ ⟨by omega, by omega⟩⟩
  · exact ⟨(-1, 0), by decide, rfl, exists_along_one ⟨by omega, by omega⟩ ⟨by omega, by omega⟩⟩

theorem exists_above (k : Square) : ∃ d ∈ rookDirs, d.1 = 0 ∧ ∃ n, Along k d 1 n := by
  have hf := fil_lt k
  have hr := rnk_lt k
  rcases Nat.lt_or_ge (rnk k) 7 with h | h
  · exact ⟨(0, 1), by decide, rfl, exists_along_one ⟨by omega, by omega⟩ ⟨by omega, by omega⟩⟩
  · exact ⟨(0, -1), by decide, rfl, exists_along_one ⟨by omega, by omega⟩ ⟨by omega, by omega⟩⟩

/-- A king that is not next to the other one can step to a square of the other shade
that the other king does not attack. -/
theorem exists_flight {man : Placement} {c : Color} {k enemy : Square} (hne : k ≠ enemy)
    (hfar : enemy ∉ reach man c .king k) :
    ∃ n, n ∈ reach man c .king k ∧ shade n ≠ shade k ∧ n ≠ enemy ∧
      ∀ man' d, n ∉ reach man' d .king enemy := by
  have hstep : ∀ {d n}, d ∈ rookDirs → Along k d 1 n →
      n ∈ reach man c .king k ∧ shade n ≠ shade k := fun hd ha =>
    ⟨mem_reach_iff_slides.mpr (.inl ⟨_, mem_kingDirs.mpr (.inl hd), ha⟩),
      shade_ne_of_orthogonal hd ha⟩
  rw [mem_reach_king] at hfar
  have hgap : (rnk k + 1 < rnk enemy ∨ rnk enemy + 1 < rnk k) ∨
      (fil k + 1 < fil enemy ∨ fil enemy + 1 < fil k) := by
    by_contra hclose
    exact hfar ⟨hne, by omega, by omega⟩
  rcases hgap with h | h
  · obtain ⟨d, hd, h0, n, ha⟩ := exists_beside k
    have hy : rnk n = rnk k := by
      have := ha.2
      rw [grid_y, grid_y, h0] at this
      omega
    refine ⟨n, (hstep hd ha).1, (hstep hd ha).2, fun e => by subst e; omega, fun man' d' hr => ?_⟩
    have := (mem_reach_king.mp hr).2.2
    omega
  · obtain ⟨d, hd, h0, n, ha⟩ := exists_above k
    have hx : fil n = fil k := by
      have := ha.1
      rw [grid_x, grid_x, h0] at this
      omega
    refine ⟨n, (hstep hd ha).1, (hstep hd ha).2, fun e => by subst e; omega, fun man' d' hr => ?_⟩
    have := (mem_reach_king.mp hr).2.1
    omega

/-! ## Feeble material stays feeble -/

variable {q : Piece} {man : Placement} {pos : Position}

/-- With kings and minor pieces only, every move is a plain one. -/
theorem FeebleOf.plain (hf : FeebleOf q pos.man) (hq : q = .knight ∨ q = .bishop) {ply : Ply}
    (h : pos.Pseudo ply) : ∃ src dst p cap, ply = .move src dst p cap ∧ (p = .king ∨ p = q) := by
  cases ply with
  | move src dst p cap => exact ⟨src, dst, p, cap, rfl, hf.men src _ p h.1.1⟩
  | promote src dst p cap =>
    rcases hf.men src _ _ h.1.1 with e | rfl
    · cases e
    · rcases hq with e | e <;> cases e
  | enpassant src dst =>
    rcases hf.men src _ _ h.1 with e | rfl
    · cases e
    · rcases hq with e | e <;> cases e
  | castle f =>
    rcases hf.men f.rookHome _ _ h.2.2.2.1 with e | rfl
    · cases e
    · rcases hq with e | e <;> cases e

/-- The men after a plain move. -/
theorem placement_move_eq_some {src dst : Square} {p : Piece} (cap : Option Piece) {sq : Square}
    {m : Man} (h : pos.placement (.move src dst p cap) sq = some m) :
    (sq = dst ∧ m = (pos.side, p)) ∨ (sq ≠ dst ∧ sq ≠ src ∧ pos.man sq = some m) := by
  simp only [Position.placement, Function.update_apply] at h
  split at h
  · rename_i e
    exact .inl ⟨e, (Option.some.inj h).symm⟩
  · rename_i e
    split at h
    · cases h
    · rename_i e'
      exact .inr ⟨e, e', h⟩

/-- A moving knight or bishop remains alike to the others. -/
theorem Alike.move {c : Color} {s t u : Square} {capturing : Bool} (hq : q = .knight ∨ q = .bishop)
    (h : Alike q s u) (hr : t ∈ targets man c q capturing s) (hu : u ≠ s) : Alike q t u := by
  rcases hq with rfl | rfl
  · exact absurd h.symm hu
  · rw [targets_piece (by decide)] at hr
    exact (shade_of_bishop hr).trans h

theorem Alike.refl (s : Square) : Alike q s s := by cases q <;> rfl

theorem Alike.symm {s t : Square} (h : Alike q s t) : Alike q t s := by
  cases q <;> exact Eq.symm h

theorem FeebleOf.apply (hf : FeebleOf q pos.man) (hq : q = .knight ∨ q = .bishop) {ply : Ply}
    (h : pos.Pseudo ply) : FeebleOf q (pos.apply ply).man := by
  obtain ⟨src, dst, p, cap, rfl, hp⟩ := hf.plain hq h
  have hc : pos.Carries src dst p cap := h.1
  have halike : ∀ sq c, p = q → sq ≠ src → pos.man sq = some (c, q) → Alike q dst sq := by
    rintro sq c rfl hne hm
    exact Alike.move hq (hf.alike src sq _ c hc.1 hm) hc.2.2 hne
  have hmen : ∀ {sq m}, (pos.apply (.move src dst p cap)).man sq = some m →
      (sq = dst ∧ m = (pos.side, p)) ∨ (sq ≠ dst ∧ sq ≠ src ∧ pos.man sq = some m) :=
    placement_move_eq_some cap
  constructor
  · intro sq c p' hm
    rcases hmen hm with ⟨_, e⟩ | ⟨_, _, hm'⟩
    · cases e
      exact hp
    · exact hf.men sq c p' hm'
  · intro s t c d hs ht
    rcases hmen hs with ⟨rfl, e⟩ | ⟨_, hns, hs'⟩
    · have hpq : p = q := (congrArg Prod.snd e).symm
      rcases hmen ht with ⟨rfl, _⟩ | ⟨_, hnt, ht'⟩
      · exact Alike.refl _
      · exact halike t d hpq hnt ht'
    · rcases hmen ht with ⟨rfl, e⟩ | ⟨_, _, ht'⟩
      · exact (halike s c (congrArg Prod.snd e).symm hns hs').symm
      · exact hf.alike s t c d hs' ht'

/-- **Whatever is played, the material remains feeble.** -/
theorem Feeble.apply (hf : Feeble pos.man) {ply : Ply} (h : pos.Pseudo ply) :
    Feeble (pos.apply ply).man :=
  hf.imp (fun hn => hn.apply (.inl rfl) h) (fun hb => hb.apply (.inr rfl) h)

/-! ## Feeble material does not mate -/

/-- A piece that gives check does not attack the squares of the other shade, and no
piece alike to it does. -/
theorem Alike.not_reach {man man' : Placement} {c d : Color} {s k n u : Square}
    (hq : q = .knight ∨ q = .bishop) (hcheck : k ∈ reach man c q s) (h : Alike q s u)
    (hn : shade n ≠ shade k) : n ∉ reach man' d q u := by
  intro hr
  rcases hq with rfl | rfl
  · obtain rfl : s = u := h
    have h1 := shade_of_knight hcheck
    have h2 := shade_of_knight hr
    unfold shade at *
    omega
  · have hsu : shade s = shade u := h
    exact hn ((shade_of_bishop hr).trans (hsu.symm.trans (shade_of_bishop hcheck).symm))

/-- A piece that gives check stands too far from the king to be taken by a step along
a file or a rank. -/
theorem not_king_of_check {man : Placement} {c d : Color} {s k : Square}
    (hq : q = .knight ∨ q = .bishop) (hcheck : k ∈ reach man c q s) (hs : shade s ≠ shade k) :
    s ∉ reach man d .king k := by
  intro hr
  obtain ⟨_, h2, h3⟩ := mem_reach_king.mp hr
  rcases hq with rfl | rfl
  · rcases (mem_reach.mp hcheck).1 with ⟨e, he, hx, hy⟩ | ⟨e, he, _⟩
    · simp only [grid_x, grid_y] at hx hy
      simp only [leapDirs, List.mem_cons, List.not_mem_nil, or_false] at he
      rcases he with rfl | rfl | rfl | rfl | rfl | rfl | rfl | rfl <;> simp only at hx hy <;> omega
    · cases he
  · exact hs (shade_of_bishop hcheck).symm

/-- **With feeble material a king in check has a move.** -/
theorem FeebleOf.exists_legal (hf : FeebleOf q pos.man) (hq : q = .knight ∨ q = .bishop)
    (hs : Sane pos) (hc : pos.InCheck) : ∃ ply, pos.Legal ply := by
  obtain ⟨k, hk, s, p, hman, hcheck⟩ := hc
  obtain ⟨enemy, henemy⟩ := hs.king_exists pos.side.xside
  have hfar : enemy ∉ reach pos.man pos.side .king k := fun hr => hs.safe enemy henemy ⟨k, _, hk, hr⟩
  have hne : k ≠ enemy := by
    rintro rfl
    rw [hk] at henemy
    exact ne_xside pos.side (congrArg Prod.fst (Option.some.inj henemy))
  obtain rfl : p = q := by
    refine (hf.men s _ p hman).resolve_left ?_
    rintro rfl
    obtain rfl := hs.king_unique _ _ _ hman henemy
    exact hfar (by rw [mem_reach_comm]; exact hcheck)
  obtain ⟨n, hkn, hshade, hnenemy, hsafe⟩ := exists_flight hne hfar
  have hclear : ∀ u c, pos.man u = some (c, p) → u ≠ n ∧ ∀ man' d, n ∉ reach man' d p u := by
    intro u c hu
    have halike := hf.alike s u _ c hman hu
    refine ⟨?_, fun man' d => halike.not_reach hq hcheck hshade⟩
    rintro rfl
    rcases hq with rfl | rfl
    · obtain rfl : s = u := halike
      exact not_king_of_check (.inl rfl) hcheck hshade hkn
    · exact hshade (Eq.trans (Eq.symm halike) (shade_of_bishop hcheck).symm)
  have hempty : pos.man n = none := by
    cases hm : pos.man n with
    | none => rfl
    | some m =>
      obtain ⟨c, p'⟩ := m
      exfalso
      rcases hf.men n c p' hm with rfl | rfl
      · rcases eq_or_eq_xside pos.side c with rfl | rfl
        · exact ne_of_mem_reach hkn (hs.king_unique _ _ _ hk hm)
        · exact hnenemy (hs.king_unique _ _ _ hm henemy)
      · exact (hclear n c hm).1 rfl
  have hpseudo : pos.Pseudo (.move k n .king none) := by
    refine ⟨⟨hk, hempty, ?_⟩, fun h => Piece.noConfusion h.1⟩
    rw [targets_piece (by decide)]
    exact hkn
  refine ⟨.move k n .king none, hpseudo, ?_⟩
  rintro sq hsq ⟨u, p', hu, hr⟩
  have hsq' : pos.placement (.move k n .king none) sq = some (pos.side, .king) := by
    have h := hsq
    simp only [Position.apply, xside_xside] at h
    exact h
  rw [placement_king hs hpseudo,
    if_pos (show (Ply.move k n .king none).piece = .king from rfl)] at hsq'
  obtain rfl : sq = n := hsq'
  have hu' : pos.man u = some (pos.side.xside, p') :=
    ((placement_enemy hs hpseudo u p').mp hu).1
  rcases hf.men u _ p' hu' with rfl | rfl
  · obtain rfl := hs.king_unique _ _ _ hu' henemy
    exact hsafe _ _ hr
  · exact (hclear u _ hu').2 _ _ hr

theorem Feeble.exists_legal (hf : Feeble pos.man) (hs : Sane pos) (hc : pos.InCheck) :
    ∃ ply, pos.Legal ply :=
  hf.elim (fun hn => hn.exists_legal (.inl rfl) hs hc) (fun hb => hb.exists_legal (.inr rfl) hs hc)

end Chess.Rules

/-! ## What the program looks at -/

namespace Chess.Board

variable {b : Board} {man : Placement}

theorem mem_lightBitboard : ∀ sq, mem lightBitboard sq = decide (shade sq = 1) := by decide

theorem mem_darkBitboard : ∀ sq, mem darkBitboard sq = decide (shade sq = 0) := by decide

section Draw

variable [Build]

theorem any_pos_eq_false (h : Consistent b man) (c : Color) (p : Piece) :
    Bitboard.any (b.pos c p) = false ↔ ∀ sq, man sq ≠ some (c, p) := by
  rw [← Bool.not_eq_true, any_iff, not_exists]
  simp only [h.pos, decide_eq_true_eq, ne_eq]

/-- Without material there are only kings. -/
theorem king_of_material (h : Consistent b man) (hw : b.material.white = 0)
    (hb : b.material.black = 0) {sq : Square} {c : Color} {p : Piece} (hm : man sq = some (c, p)) :
    p = .king := by
  have hsum : ∑ sq, manValue c (man sq) = 0 := by
    rw [← h.material c]
    cases c
    · exact hw
    · exact hb
  have hzero := (Finset.sum_eq_zero_iff_of_nonneg (fun s _ => (manValue_mem c (man s)).1)).mp hsum
    sq (Finset.mem_univ sq)
  rw [hm] at hzero
  simp only [manValue, if_true] at hzero
  cases p with
  | king => rfl
  | _ => exact absurd hzero (by decide)

/-- What a kind of piece that occurs once, or only on one shade, says about two squares. -/
theorem alike_of_popcnt {q : Piece} (h : Consistent b man)
    (hone : Bitboard.popcnt (b.pos .white q ||| b.pos .black q) = 1) {s t : Square} {c d : Color}
    (hs : man s = some (c, q)) (ht : man t = some (d, q)) : s = t := by
  have hmem : ∀ {sq c}, man sq = some (c, q) → mem (b.pos .white q ||| b.pos .black q) sq = true := by
    intro sq c hm
    rw [mem_or, h.pos, h.pos, hm]
    cases c <;> simp
  obtain ⟨i, hi⟩ := (count_eq_one _).mp hone
  exact ((hi s).mp (hmem hs)).trans ((hi t).mp (hmem ht)).symm

/-- Bishops that avoid the squares of one shade are all on the other one. -/
theorem shade_of_bishops (h : Consistent b man) {squares : Bitboard} {i : Nat}
    (hsquares : ∀ sq, mem squares sq = decide (shade sq = i))
    (hnone : Bitboard.any ((b.pos .white .bishop &&& squares) |||
      (b.pos .black .bishop &&& squares)) = false) {sq : Square} {c : Color}
    (hm : man sq = some (c, .bishop)) : shade sq ≠ i := by
  intro hi
  refine Bool.false_ne_true (hnone.symm.trans ((any_iff _).mpr ⟨sq, ?_⟩))
  rw [mem_or, mem_and, mem_and, h.pos, h.pos, hsquares, hm, decide_eq_true hi]
  cases c <;> simp

/-- **`is_material_draw` accepts feeble material only.** -/
theorem feeble_of_isMaterialDraw (h : Consistent b man) (hd : b.isMaterialDraw = true) :
    Feeble man := by
  unfold isMaterialDraw at hd
  simp only at hd
  split at hd
  · rename_i hbare
    have hking : ∀ sq c p, man sq = some (c, p) → p = .king := fun sq c p hm => by
      simp only [Bool.and_eq_true, decide_eq_true_eq] at hbare
      exact king_of_material h hbare.1 hbare.2 hm
    exact .inl ⟨fun sq c p hm => .inl (hking sq c p hm),
      fun s t c d hs _ => Piece.noConfusion (hking s c _ hs)⟩
  split at hd
  · cases hd
  rename_i hmajor
  simp only [Bool.or_eq_true, not_or, Bool.not_eq_true, any_pos_eq_false h] at hmajor
  obtain ⟨⟨⟨⟨⟨hwp, hbp⟩, hwr⟩, hbr⟩, hwq⟩, hbq⟩ := hmajor
  have hmen : ∀ sq c p, man sq = some (c, p) → p = .king ∨ p = .knight ∨ p = .bishop := by
    intro sq c p hm
    cases p with
    | king => exact .inl rfl
    | knight => exact .inr (.inl rfl)
    | bishop => exact .inr (.inr rfl)
    | pawn => cases c <;> [exact absurd hm (hwp sq); exact absurd hm (hbp sq)]
    | rook => cases c <;> [exact absurd hm (hwr sq); exact absurd hm (hbr sq)]
    | queen => cases c <;> [exact absurd hm (hwq sq); exact absurd hm (hbq sq)]
  have hwithout : ∀ {p}, Bitboard.any (b.pos .white p) = false → Bitboard.any (b.pos .black p) = false →
      ∀ sq c, man sq ≠ some (c, p) := by
    intro p hw hb sq c
    cases c
    · exact (any_pos_eq_false h .white p).mp hw sq
    · exact (any_pos_eq_false h .black p).mp hb sq
  split at hd
  · rename_i hknight
    simp only [Bool.and_eq_true, Bool.not_eq_true', decide_eq_true_eq] at hknight
    obtain ⟨⟨hone, hwb⟩, hbb⟩ := hknight
    refine .inl ⟨fun sq c p hm => ?_, fun s t c d hs ht => alike_of_popcnt h hone hs ht⟩
    rcases hmen sq c p hm with hp | hp | rfl
    · exact .inl hp
    · exact .inr hp
    · exact absurd hm (hwithout hwb hbb sq c)
  have hbishops : (∀ sq c, man sq ≠ some (c, .knight)) →
      (∀ s t c d, man s = some (c, .bishop) → man t = some (d, .bishop) → shade s = shade t) →
      Feeble man := by
    intro hn hshade
    refine .inr ⟨fun sq c p hm => ?_, hshade⟩
    rcases hmen sq c p hm with hp | rfl | hp
    · exact .inl hp
    · exact absurd hm (hn sq c)
    · exact .inr hp
  split at hd
  · rename_i hbishop
    simp only [Bool.and_eq_true, Bool.not_eq_true', decide_eq_true_eq] at hbishop
    obtain ⟨⟨hone, hwn⟩, hbn⟩ := hbishop
    refine hbishops (hwithout hwn hbn) fun s t c d hs ht => ?_
    rw [alike_of_popcnt h hone hs ht]
  · simp only [Bool.and_eq_true, Bool.or_eq_true, Bool.not_eq_true'] at hd
    obtain ⟨⟨hwn, hbn⟩, hone⟩ := hd
    refine hbishops (hwithout hwn hbn) fun s t c d hs ht => ?_
    have hlt : ∀ sq, shade sq < 2 := fun sq => Nat.mod_lt _ (by decide)
    have h1 := hlt s
    have h2 := hlt t
    rcases hone with hlight | hdark
    · have h3 := shade_of_bishops h mem_lightBitboard hlight hs
      have h4 := shade_of_bishops h mem_lightBitboard hlight ht
      omega
    · have h3 := shade_of_bishops h mem_darkBitboard hdark hs
      have h4 := shade_of_bishops h mem_darkBitboard hdark ht
      omega

end Draw

end Chess.Board

namespace Chess

section Play

variable [Build] {b : Board}

/-- A listed legal move. -/
def Board.LegalMove (b : Board) (mov : Move) : Prop := mov ∈ b.legalMoves.moves

theorem Reached.of_along (h : Reached b) {movs : List Move}
    (hmovs : Along Board.makeMove Board.LegalMove b movs) : Reached (run Board.makeMove b movs) := by
  induction movs generalizing b with
  | nil => exact h
  | cons mov movs ih => exact ih (h.move hmovs.1) hmovs.2

/-- Feeble material stays feeble in a game. -/
theorem Reached.feeble_run (h : Reached b) (hf : Feeble b.abs.man) {movs : List Move}
    (hmovs : Along Board.makeMove Board.LegalMove b movs) :
    Feeble (run Board.makeMove b movs).abs.man := by
  induction movs generalizing b with
  | nil => exact hf
  | cons mov movs ih =>
    refine ih (h.move hmovs.1) ?_ hmovs.2
    obtain ⟨hsim, hp⟩ := h.sim_abs
    obtain ⟨ply, rfl, hl⟩ := (hsim.mem_legalMoves hp.sane hp.materialOk mov).mp hmovs.1
    rw [(hsim.makeMove hp.sane hl.1).abs_eq]
    exact hf.apply hl.1

theorem Reached.not_isMate (h : Reached b) (hf : Feeble b.abs.man) : b.isMate = false := by
  obtain ⟨hsim, hp⟩ := h.sim_abs
  rw [Board.isMate, Bool.and_eq_false_iff]
  by_cases hc : b.inCheck = true
  · obtain ⟨ply, hl⟩ := hf.exists_legal hp.sane
      ((hsim.inCheck (hp.sane.king_exists _)).mp hc)
    have hmem : ply.encode ∈ b.legalMoves.moves :=
      (hsim.mem_legalMoves hp.sane hp.materialOk _).mpr ⟨ply, rfl, hl⟩
    refine .inr (decide_eq_false fun h0 => ?_)
    have hnil : b.legalMoves.moves = [] :=
      List.eq_nil_of_length_eq_zero ((List.length_map _).trans h0)
    rw [hnil] at hmem
    exact List.not_mem_nil hmem
  · exact .inl (Bool.not_eq_true _ ▸ hc)

/-- **A material draw is never mated any more**, whatever legal moves follow. -/
theorem reached_materialDraw_sound (h : Reached b) (hd : b.isMaterialDraw = true)
    {movs : List Move} (hmovs : Along Board.makeMove Board.LegalMove b movs) :
    (run Board.makeMove b movs).isMate = false := by
  have hf : Feeble b.abs.man :=
    Board.feeble_of_isMaterialDraw h.sim_abs.1.consistent hd
  exact (h.of_along hmovs).not_isMate (h.feeble_run hf hmovs)

/-- One bishop each, both on dark squares. -/
example : (@Board.parseFen sampleBuild "8/4k3/8/2b5/8/8/8/2B1K3 w - - 0 1").holds (fun b =>
    b.isMaterialDraw) = true := by
  decide +kernel

end Play

/-- A game of 31 plies after which a white bishop and the kings are left. -/
def loneBishop : List Ply := [
  .move 12 28 .pawn none, .move 51 35 .pawn none, .move 28 35 .pawn (some .pawn),
  .move 59 35 .queen (some .pawn), .move 3 39 .queen none, .move 35 8 .queen (some .pawn),
  .move 39 55 .queen (some .pawn), .move 8 9 .queen (some .pawn), .move 55 62 .queen (some .knight),
  .move 63 15 .rook (some .pawn), .move 62 54 .queen (some .pawn), .move 15 7 .rook (some .rook),
  .move 0 48 .rook (some .pawn), .move 7 6 .rook (some .knight), .move 48 56 .rook (some .rook),
  .move 6 14 .rook (some .pawn), .move 56 57 .rook (some .knight), .move 14 13 .rook (some .pawn),
  .move 57 49 .rook (some .pawn), .move 13 11 .rook (some .pawn), .move 49 50 .rook (some .pawn),
  .move 9 10 .queen (some .pawn), .move 54 61 .queen (some .bishop), .move 60 61 .king (some .queen),
  .move 50 52 .rook (some .pawn), .move 10 1 .queen (some .knight), .move 52 53 .rook (some .pawn),
  .move 61 53 .king (some .rook), .move 4 11 .king (some .rook), .move 1 2 .queen (some .bishop),
  .move 11 2 .king (some .queen)]

theorem line_loneBishop : Line Rules.opening loneBishop := by decide +kernel

theorem man_loneBishop : ∀ sq c p, (loneBishop.foldl Position.apply Rules.opening).man sq = some (c, p) →
    p = .king ∨ p = .bishop ∧ shade sq = 1 := by
  decide

/-- The game goes on with a move of the black king. -/
theorem materialDraw_loneBishop : ∃ b, @Reached sampleBuild b ∧ b.isMaterialDraw = true ∧
    @Board.isMate sampleBuild
      (@Board.makeMove sampleBuild b (Ply.encode (.move 53 52 .king none))) = false := by
  let _ := sampleBuild
  obtain ⟨b, hb, hsim, hp⟩ := reached_line line_loneBishop
  have hnone : ∀ c p, p ≠ .king → p ≠ .bishop → Bitboard.any (b.pos c p) = false :=
    fun c p hk hb => (Board.any_pos_eq_false hsim.consistent c p).mpr fun sq hm =>
      (man_loneBishop sq c p hm).elim hk (fun h => hb h.1)
  have hdark : Bitboard.any ((b.pos .white .bishop &&& Board.darkBitboard) |||
      (b.pos .black .bishop &&& Board.darkBitboard)) = false := by
    rw [← Bool.not_eq_true, any_iff]
    rintro ⟨sq, hsq⟩
    simp only [mem_or, mem_and, hsim.consistent.pos, Board.mem_darkBitboard, Bool.or_eq_true,
      Bool.and_eq_true, decide_eq_true_eq] at hsq
    rcases hsq with ⟨hm, h0⟩ | ⟨hm, h0⟩ <;>
      rcases man_loneBishop sq _ _ hm with h | ⟨_, h1⟩ <;> first | cases h | omega
  have hdraw : b.isMaterialDraw = true := by
    simp [Board.isMaterialDraw, hnone, hdark]
  have hlegal : (loneBishop.foldl Position.apply Rules.opening).Legal (.move 53 52 .king none) := by
    decide +kernel
  have hmov : Board.LegalMove b (Ply.encode (.move 53 52 .king none)) :=
    (hsim.mem_legalMoves hp.sane hp.materialOk _).mpr ⟨_, rfl, hlegal⟩
  have halong : Along Board.makeMove Board.LegalMove b [Ply.encode (.move 53 52 .king none)] :=
    ⟨hmov, trivial⟩
  exact ⟨b, hb, hdraw, reached_materialDraw_sound hb hdraw halong⟩

end Chess

end HoiChess
